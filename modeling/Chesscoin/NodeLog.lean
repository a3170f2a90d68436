import Chesscoin.HonestTrace
import Chesscoin.LogReplay

/-!
The log of a running node.

The file is followed as text: an append adds an entry, or a part of one, or nothing, and
what it adds depends on how the calls to the file system turn out. While the calls succeed,
the log loads as the fork choice of the node.
-/

namespace Chesscoin.NodeLog

open Chesscoin.Lib.ByteString Chesscoin.Lib.Text Chesscoin.Lib.Linked Chesscoin.Domain
  Chesscoin.Simulator Chesscoin.Validation Chesscoin.ForkChoice Chesscoin.ForkTree
  Chesscoin.Wire Chesscoin.Storage Chesscoin.Runtime Chesscoin.Runs Chesscoin.ActiveView
  Chesscoin.LogReplay Chesscoin.Mining Chesscoin.Adapters

variable {hasher : HashPort} {sampler : SamplingPort} {addr : AddrText} {B : Block → Prop}
  {config : ChainConfig} {st st' : NodeState}

/-! ### The log as text -/

/-- The text of the log; a missing file is an empty log. -/
def logText (st : NodeState) : Option Str :=
  st.storage.bind fun disk => fromUtf8 (disk.file.getD [])

/-- The text after an append. -/
def appendText (hasher : HashPort) (config : ChainConfig) (block : Block) (io : AppendIo)
    (text : Str) : Str :=
  let entry := entryText hasher config block (!io.metadataFails && text.isEmpty)
  if io.openFails then text
  else match io.cut with
    | none => text ++ entry
    | some n => text ++ entry.take n

lemma utf8_isEmpty (s : Str) : (utf8 s).isEmpty = s.isEmpty := by
  cases s with
  | nil => rfl
  | cons c s =>
    have hpos := Char.utf8Size_pos c
    have hlen : (String.utf8EncodeChar c).length = c.utf8Size := String.length_utf8EncodeChar c
    rw [List.isEmpty_cons, List.isEmpty_eq_false_iff]
    intro hnil
    have hc : String.utf8EncodeChar c = [] := (List.append_eq_nil_iff.mp hnil).1
    rw [hc, List.length_nil] at hlen
    omega

/-- **An append to the file is an append to its text.** -/
theorem appendBlock_text {file : Option Bytes} {text : Str}
    (h : fromUtf8 (file.getD []) = some text) (config : ChainConfig) (block : Block)
    (io : AppendIo) :
    fromUtf8 ((appendBlock hasher config block io file).2.getD []) =
      some (appendText hasher config block io text) := by
  have hbytes := utf8_of_fromUtf8 h
  unfold appendBlock appendText
  simp only
  split
  · exact h
  · rw [← hbytes, utf8_isEmpty]
    cases io.cut with
    | none => rw [Option.getD_some, appendBytes_eq, ← utf8_append, fromUtf8_utf8]
    | some n =>
      rw [Option.getD_some, appendBytes_eq, take_utf8_ascii entryText_ascii, ← utf8_append,
        fromUtf8_utf8]

/-! ### How appends turn out -/

/-- The append succeeds. -/
def Succeeds (io : AppendIo) : Prop := io.openFails = false ∧ io.cut = none

/-- The append fails and writes nothing. -/
def Spares (io : AppendIo) : Prop := io.openFails = true ∨ io.cut = some 0

lemma appendText_succeeds {io : AppendIo} (h : Succeeds io) (block : Block) (text : Str) :
    appendText hasher config block io text =
      text ++ entryText hasher config block (!io.metadataFails && text.isEmpty) := by
  simp [appendText, h.1, h.2]

/-- A header is written on an empty log only. -/
lemma empty_of_header {io : AppendIo} {text : Str}
    (h : (!io.metadataFails && text.isEmpty) = true) : text = [] := by
  rw [Bool.and_eq_true, List.isEmpty_iff] at h
  exact h.2

lemma appendText_spares {io : AppendIo} (h : Spares io) (block : Block) (text : Str) :
    appendText hasher config block io text = text := by
  unfold appendText
  rcases h with h | h
  · simp [h]
  · simp [h]

/-- All appends to come turn out as `P` says. -/
def AllAppends (P : AppendIo → Prop) (st : NodeState) : Prop :=
  ∀ disk, st.storage = some disk → ∀ io ∈ disk.io, P io

lemma AllAppends.mono {P Q : AppendIo → Prop} (h : AllAppends P st) (hPQ : ∀ io, P io → Q io) :
    AllAppends Q st :=
  fun disk hdisk io hio => hPQ io (h disk hdisk io hio)

/-! ### Configurations -/

/-- Both views of the blocks have the configuration. -/
structure Configured (config : ChainConfig) (st : NodeState) : Prop where
  chain : st.chain.config = config
  forkChoice : st.forkChoice.config = config

lemma activated_config {chain : ChainState} {fc : ForkChoiceState} (hchain : chain.config = config)
    (hfc : fc.config = config) : (activated hasher sampler chain fc).config = config := by
  unfold activated
  split
  · exact hchain
  · split
    · exact hchain
    · next happly =>
      rw [applyAll_eq happly]
      exact hfc

lemma Move.configured (h : Move hasher sampler B st st') (hconfig : Configured config st) :
    Configured config st' := by
  cases h with
  | idle hchain hfc _ =>
    exact ⟨by rw [hchain]; exact hconfig.chain, by rw [hfc]; exact hconfig.forkChoice⟩
  | take block _ _ hins _ _ hchain =>
    have hfc : st'.forkChoice.config = config :=
      (config_of_insertBlock hins).trans hconfig.forkChoice
    refine ⟨?_, hfc⟩
    rw [hchain]
    exact activated_config hconfig.chain hfc

/-! ### Moves -/

/-- The block is new, or it was mined on the best tip. -/
def FreshOrMined (hasher : HashPort) (fc : ForkChoiceState) (block : Block) : Prop :=
  fc.look (blockHash hasher block) = none ∨ ∃ trainingSeed samplingEntropy,
    fc.mineNextBlock hasher trainingSeed samplingEntropy = some block

/-- A block that is persisted is appended. -/
lemma persisted_log {P : AppendIo → Prop} {text : Str} {block : Block}
    (hP : P AppendIo.success) (hio : AllAppends P st) (hlog : logText st = some text)
    (hstorage : st'.storage = persisted hasher config block st.storage) :
    AllAppends P st' ∧
      ∃ io, P io ∧ logText st' = some (appendText hasher config block io text) := by
  cases hdisk : st.storage with
  | none =>
    rw [logText, hdisk] at hlog
    cases hlog
  | some disk =>
    rw [logText, hdisk, Option.bind_some] at hlog
    rw [hdisk, persisted, Option.map_some] at hstorage
    have hnext : P disk.nextIo := by
      unfold Disk.nextIo
      cases hrest : disk.io with
      | nil => exact hP
      | cons io rest => exact hio disk hdisk io (by simp [hrest])
    refine ⟨?_, disk.nextIo, hnext, ?_⟩
    · intro disk' hdisk' io hmem
      rw [hstorage, Option.some.injEq] at hdisk'
      subst hdisk'
      exact hio disk hdisk io (List.mem_of_mem_tail hmem)
    · rw [logText, hstorage, Option.bind_some]
      exact appendBlock_text hlog config block disk.nextIo

/-- **What a move does to the log**: nothing, or the block it takes in is appended. -/
theorem Move.log {P : AppendIo → Prop} {text : Str} (h : Move hasher sampler B st st')
    (hP : P AppendIo.success) (hio : AllAppends P st) (hconfig : Configured config st)
    (hlog : logText st = some text) :
    AllAppends P st' ∧
      ((st'.chain = st.chain ∧ st'.forkChoice = st.forkChoice ∧ logText st' = some text) ∨
        ∃ block io, P io ∧ B block ∧ FreshOrMined hasher st.forkChoice block ∧
          st.forkChoice.insertBlock hasher sampler block =
            (.ok (blockHash hasher block), st'.forkChoice) ∧
          logText st' = some (appendText hasher config block io text)) := by
  have hconfig' := Move.configured h hconfig
  cases h with
  | idle hchain hfc hstorage =>
    refine ⟨?_, .inl ⟨hchain, hfc, ?_⟩⟩
    · intro disk hdisk
      rw [hstorage] at hdisk
      exact hio disk hdisk
    · rw [logText, hstorage]
      exact hlog
  | @take config' block hB hnew hins hwhich hstorage _ =>
    have hsame : config' = config := by
      rcases hwhich with hchain | hchain
      · exact hchain.trans hconfig.chain
      · exact hchain.trans hconfig'.chain
    subst hsame
    obtain ⟨hio', io, hnext, hlog'⟩ := persisted_log hP hio hlog hstorage
    exact ⟨hio', .inr ⟨block, io, hnext, hB, hnew, hins, hlog'⟩⟩

/-! ### Starts -/

/-- A start on a log of blocks of `B` whose last line is complete. -/
structure LogStart (hasher : HashPort) (sampler : SamplingPort) (addr : AddrText)
    (B : Block → Prop) (config : ChainConfig) (text : Str) (st : NodeState) : Prop where
  loaded : initialChains hasher sampler addr config st.storage = .ok (st.chain, st.forkChoice)
  log : logText st = some text
  complete : HasCompleteTail text
  logged : ∀ b ∈ loggedBlocks hasher addr text, B b

/-- What a node with a log has loaded at its start. -/
lemma initialChains_ok_iff {text : Str} {chain : ChainState} {fc : ForkChoiceState}
    (hlog : logText st = some text) :
    initialChains hasher sampler addr config st.storage = .ok (chain, fc) ↔
      ∃ s, loadContent hasher sampler addr config text = .ok s ∧ s.forkChoice = fc ∧
        chain = view fc := by
  unfold logText at hlog
  cases hdisk : st.storage with
  | none =>
    rw [hdisk] at hlog
    cases hlog
  | some disk =>
    rw [hdisk, Option.bind_some] at hlog
    exact loadChains_ok_iff hlog

lemma configured_of_initialChains {text : Str} (hlog : logText st = some text)
    (h : initialChains hasher sampler addr config st.storage = .ok (st.chain, st.forkChoice)) :
    Configured config st := by
  obtain ⟨s, hload, hfc, hchain⟩ := (initialChains_ok_iff hlog).mp h
  have hconfig : st.forkChoice.config = config := hfc ▸ (loadContent_tree hload).2
  exact ⟨by rw [hchain]; exact hconfig, hconfig⟩

lemma LogStart.active {text : Str} (h : LogStart hasher sampler addr B config text st) :
    Active hasher sampler B st := by
  obtain ⟨s, hload, hfc, hchain⟩ := (initialChains_ok_iff h.log).mp h.loaded
  have hacc := loadContent_accepted hload
  rw [hfc] at hacc
  refine ⟨hfc ▸ (loadContent_tree hload).1, fun k n hk => ?_, hchain⟩
  exact h.logged _ (hacc.block_mem hk)

lemma LogStart.configured {text : Str} (h : LogStart hasher sampler addr B config text st) :
    Configured config st :=
  configured_of_initialChains h.log h.loaded

lemma freshNode_logStart (config : ChainConfig) (io : List AppendIo) :
    LogStart hasher sampler addr B config [] (freshNode config (some ⟨none, io⟩)) :=
  ⟨rfl, fromUtf8_utf8 [], .inl rfl, fun _ hb => nomatch hb⟩

/-! ### A node to try things on -/

def demoAddr : AddrText := ⟨fun _ => [], fun _ => none⟩
def demoConfig : ChainConfig := ⟨1, 1, 0⟩

/-- A first block as it is mined when no work is asked for. -/
def demoBlock : Block := candidate toyHash demoConfig ParentContext.genesis 1 0 0

/-- A node that knows no block, on some disk. -/
def demoNode (disk : Disk) : NodeState := freshNode demoConfig (some disk)

lemma demoNode_succeed (disk : Disk) (h : disk.io = []) :
    AllAppends Succeeds (demoNode disk) := by
  intro disk' hdisk io hio
  obtain rfl := Option.some.inj hdisk
  rw [h] at hio
  cases hio

lemma demoBlock_inserts : ∃ fc,
    (ForkChoiceState.new demoConfig).insertBlock toyHash deterministicSampler demoBlock =
      (.ok (blockHash toyHash demoBlock), fc) := by
  have hmined : mineAfter toyHash demoConfig ParentContext.genesis 1 0 = some demoBlock :=
    mineAfter_of_difficulty_zero toyHash rfl ParentContext.genesis 1 0
  have hvalid : Valid toyHash deterministicSampler demoConfig ParentContext.genesis demoBlock :=
    HonestTrace.valid_of_mined toyHash deterministicSampler deterministicSampler_inRange hmined
  rcases insertBlock_cases toyHash deterministicSampler (ForkChoiceState.new demoConfig)
      demoBlock with ⟨-, hr⟩ | ⟨e', -, hrefused, -⟩ | ⟨ctx, score, -, -, -, hr⟩
  · exact ⟨_, hr⟩
  · exact absurd hvalid (hrefused ParentContext.genesis 0 rfl)
  · exact ⟨_, hr⟩

/-- The node takes the block in, whatever its log is like. -/
lemma demoNode_takes (disk : Disk) :
    (applyIncomingBlock toyHash deterministicSampler demoBlock .gossip
      (demoNode disk)).2.forkChoice.containsBlock (blockHash toyHash demoBlock) = true := by
  rcases applyIncomingBlock_cases toyHash deterministicSampler demoBlock .gossip
      (demoNode disk) with
    ⟨hknown, hr⟩ | ⟨e, hins, -⟩ | ⟨st', -, hins, -, -, hr⟩
  · rw [hr]
    exact hknown
  · obtain ⟨fc, hok⟩ := demoBlock_inserts
    have hsame : (demoNode disk).forkChoice = ForkChoiceState.new demoConfig := rfl
    rw [hsame, hok] at hins
    cases hins
  · rw [hr, containsBlock_iff]
    exact look_insertBlock_self hins

end Chesscoin.NodeLog

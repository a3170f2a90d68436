import Chesscoin.LocalMining
import Chesscoin.NodeLog

/-!
Appends that fail without writing.

The node goes on with a block its log does not have. What the log does have can be loaded as
long as the parent of each block is written before it: then the loaded fork choice is a part
of the one in memory. A block whose parent is missing makes the whole log unloadable.
-/

namespace Chesscoin.Failures

open Chesscoin.Lib.Text Chesscoin.Lib.Linked Chesscoin.Domain Chesscoin.Simulator
  Chesscoin.Validation Chesscoin.Mining Chesscoin.ForkChoice Chesscoin.ForkTree
  Chesscoin.Wire Chesscoin.Storage Chesscoin.Runtime Chesscoin.Runs Chesscoin.ActiveView
  Chesscoin.LocalMining Chesscoin.LogReplay Chesscoin.NodeLog Chesscoin.Adapters
open ForkChoiceState

variable {hasher : HashPort} {sampler : SamplingPort} {addr : AddrText} {B : Block → Prop}
  {config : ChainConfig} {text : Str} {st st' : NodeState}

/-! ### A part of a tree -/

/-- Everything in the first fork choice is in the second: a block with the same header and
the same work. -/
def Mirrors (fc gc : ForkChoiceState) : Prop :=
  ∀ k n, fc.look k = some n →
    ∃ m, gc.look k = some m ∧ n.block.header = m.block.header ∧ n.workScore = m.workScore

variable {fc gc gc' : ForkChoiceState} {b : Block}

lemma Mirrors.refl (fc : ForkChoiceState) : Mirrors fc fc := fun _ n hk => ⟨n, hk, rfl, rfl⟩

lemma Mirrors.extends (h : Mirrors fc gc) (hext : Extends gc.look gc'.look) : Mirrors fc gc' := by
  intro k n hk
  obtain ⟨m, hm, hheader, hscore⟩ := h k n hk
  exact ⟨m, hext k m hm, hheader, hscore⟩

/-- What stands on a block sees its header and its work. -/
lemma Mirrors.parentContext (h : Mirrors fc gc) (hfc : Tree hasher sampler fc)
    (hgc : Tree hasher sampler gc) {r : ParentContext × ℕ} (hp : fc.parentContext b = .ok r) :
    gc.parentContext b = .ok r := by
  obtain ⟨ctx, score⟩ := r
  rcases parentContext_ok hp with ⟨hz, rfl, rfl⟩ | ⟨hz, n, hn, rfl, rfl⟩
  · rw [ForkChoiceState.parentContext, if_pos hz]
  · obtain ⟨m, hm, hheader, hscore⟩ := h _ n hn
    have hsn := hfc.stored _ n hn
    have hsm := hgc.stored _ m hm
    rw [ForkChoiceState.parentContext, if_neg hz, hm]
    simp only [hsn.nextHeight, hsm.nextHeight, hsn.hash, hsm.hash, hheader, hscore]

/-- A block that is taken in is valid after its parent. -/
lemma valid_of_taken (h : Tree hasher sampler gc) (hrange : sampler.InRange)
    (hnonzero : ∀ k n, gc.look k = some n → k ≠ Digest.zero)
    (hnew : FreshOrMined hasher gc b) {hash : Digest}
    (hins : gc.insertBlock hasher sampler b = (.ok hash, gc')) {ctx : ParentContext} {score : ℕ}
    (hctx : gc.parentContext b = .ok (ctx, score)) : Valid hasher sampler gc.config ctx b := by
  rcases hnew with hnone | ⟨trainingSeed, samplingEntropy, hmined⟩
  · obtain ⟨ctx', score', hctx', hvalid, -⟩ := insertBlock_taken hnone hins
    rw [hctx] at hctx'
    cases hctx'
    exact hvalid
  · obtain ⟨score', hbest⟩ := parentContext_bestHash h hnonzero (mined_previousBlock hmined)
    rw [hctx] at hbest
    cases hbest
    exact HonestTrace.valid_of_mined hasher sampler hrange hmined

/-- **A part of a tree takes in what the tree takes in**, when it has the parent. -/
theorem Mirrors.insertBlock (h : Mirrors fc gc) (hfc : Tree hasher sampler fc)
    (hgc : Tree hasher sampler gc) (hconfig : fc.config = gc.config) (hrange : sampler.InRange)
    (hknown : ∀ k n, gc.look k = some n → B n.block)
    (hnonzero : ∀ b, B b → blockHash hasher b ≠ Digest.zero)
    (hdistinct : DistinctHeaders hasher B) (hB : B b) (hnew : FreshOrMined hasher gc b)
    {hash : Digest} (hins : gc.insertBlock hasher sampler b = (.ok hash, gc'))
    (hparent : b.header.previousBlock = Digest.zero ∨
      fc.containsBlock b.header.previousBlock = true) :
    ∃ hash' fc', fc.insertBlock hasher sampler b = (.ok hash', fc') ∧ Mirrors fc' gc' := by
  obtain rfl : (gc.insertBlock hasher sampler b).2 = gc' := congrArg Prod.snd hins
  have hext := insertBlock_extends hasher sampler gc b
  obtain ⟨ctx, score, hctx⟩ := parentContext_of_known hparent
  have hctx' := h.parentContext hfc hgc hctx
  have hvalid := valid_of_taken hgc hrange
    (fun k n hk => known_nonzero hgc hknown hnonzero hk) hnew hins hctx'
  rw [← hconfig] at hvalid
  rcases insertBlock_cases hasher sampler fc b with
    ⟨-, hr⟩ | ⟨e, -, hrefused, -⟩ | ⟨ctx₁, score₁, -, hctx₁, -, hr⟩
  · exact ⟨_, _, hr, h.extends hext⟩
  · exact absurd hvalid (hrefused ctx score hctx)
  · rw [hctx] at hctx₁
    cases hctx₁
    refine ⟨_, _, hr, fun k n hk => ?_⟩
    by_cases he : k = blockHash hasher b
    · rw [he, addNode_forkNode_look, Option.some.injEq] at hk
      subst hk
      -- the node in memory may be that of an earlier block with the same header
      obtain ⟨m, hm⟩ := look_insertBlock_self hins
      have hs := (hgc.insertBlock b).stored _ m hm
      have hBm : B m.block := known_of_insertBlock hins hknown hB _ m hm
      have hheader : m.block.header = b.header := hdistinct _ _ hBm hB hs.keyed
      obtain ⟨ctx₂, score₂, hctx₂, -, hmade⟩ := hs.made
      rw [parentContext_header hheader, parentContext_mono hext hctx'] at hctx₂
      cases hctx₂
      have hconfig' := insertBlock_config hasher sampler gc b
      refine ⟨m, he ▸ hm, hheader.symm, ?_⟩
      rw [hmade]
      simp only [ForkChoiceState.forkNode, hconfig', hconfig]
    · rw [addNode_look_of_ne he] at hk
      exact h.extends hext k n hk

/-! ### Runs -/

/-- The append succeeds, or it fails and writes nothing. -/
def AllOrNothingWritten (io : AppendIo) : Prop := Succeeds io ∨ Spares io

/-- What holds of a node and its log when appends fail without writing. -/
structure Shadowed (hasher : HashPort) (sampler : SamplingPort) (addr : AddrText)
    (B : Block → Prop) (config : ChainConfig) (text : Str) (st : NodeState) : Prop where
  active : Active hasher sampler B st
  configured : Configured config st
  appends : AllAppends AllOrNothingWritten st
  log : logText st = some text
  complete : HasCompleteTail text
  logged : ∀ b ∈ loggedBlocks hasher addr text, B b
  loads : ParentsFirst hasher (loggedBlocks hasher addr text) →
    ∃ s, loadContent hasher sampler addr config text = .ok s ∧
      Mirrors s.forkChoice st.forkChoice

lemma LogStart.shadowed (h : LogStart hasher sampler addr B config text st)
    (happends : AllAppends AllOrNothingWritten st) :
    Shadowed hasher sampler addr B config text st := by
  obtain ⟨s, hload, hfc, -⟩ := (initialChains_ok_iff h.log).mp h.loaded
  refine ⟨h.active, h.configured, happends, h.log, h.complete, h.logged,
    fun _ => ⟨s, hload, ?_⟩⟩
  rw [hfc]
  exact Mirrors.refl _

/-- **A move keeps the log a part of the memory**, as long as no parent is missing. -/
theorem Shadowed.move (h : Shadowed hasher sampler addr B config text st)
    (hrange : sampler.InRange) (hnonzero : ∀ b, B b → blockHash hasher b ≠ Digest.zero)
    (hdistinct : DistinctHeaders hasher B) (hmove : Move hasher sampler B st st') :
    ∃ text', Shadowed hasher sampler addr B config text' st' := by
  have hactive := h.active.move hnonzero hmove
  have hconfig := Move.configured hmove h.configured
  obtain ⟨hio, ⟨-, hfc, hlog⟩ | ⟨block, io, hwritten, hB, hnew, hins, hlog⟩⟩ :=
    Move.log hmove (.inl ⟨rfl, rfl⟩) h.appends h.configured h.log
  · exact ⟨text, hactive, hconfig, hio, hlog, h.complete, h.logged, by rw [hfc]; exact h.loads⟩
  · rcases hwritten with hsucceeds | hspares
    · rw [appendText_succeeds hsucceeds] at hlog
      refine ⟨_, hactive, hconfig, hio, hlog, hasCompleteTail_append entryText_getLast, ?_, ?_⟩
      · intro b hb
        rw [loggedBlocks_entry h.complete, List.mem_append, List.mem_singleton] at hb
        rcases hb with hb | rfl
        · exact h.logged b hb
        · exact hB
      · intro hfirst
        rw [loggedBlocks_entry h.complete, parentsFirst_snoc] at hfirst
        obtain ⟨s, hload, hmirrors⟩ := h.loads hfirst.1
        obtain ⟨htree, hsconfig⟩ := loadContent_tree hload
        have hparent : block.header.previousBlock = Digest.zero ∨
            s.forkChoice.containsBlock block.header.previousBlock = true := by
          rcases hfirst.2 with hz | ⟨p, hp, hhash⟩
          · exact .inl hz
          · exact .inr (hhash ▸ (loadContent_accepted hload).known hp)
        obtain ⟨_, fc', hins', hmirrors'⟩ := hmirrors.insertBlock htree h.active.tree
          (hsconfig.trans h.configured.forkChoice.symm) hrange h.active.known hnonzero hdistinct hB
          hnew hins hparent
        obtain ⟨s', hloads', hs'⟩ :=
          Loads.entry ⟨h.complete, hload⟩ empty_of_header hins'
        exact ⟨s', hloads'.2, hs' ▸ hmirrors'⟩
    · rw [appendText_spares hspares] at hlog
      refine ⟨text, hactive, hconfig, hio, hlog, h.complete, h.logged, fun hfirst => ?_⟩
      obtain ⟨s, hload, hmirrors⟩ := h.loads hfirst
      exact ⟨s, hload, hmirrors.extends (extends_of_insertBlock hins)⟩

/-- The log of the node loads, and has every block that was written together with all of its
ancestors. -/
def HoldsWritten (hasher : HashPort) (sampler : SamplingPort) (addr : AddrText)
    (config : ChainConfig) (written : List Block) (st : NodeState) : Prop :=
  ∃ chain fc, initialChains hasher sampler addr config st.storage = .ok (chain, fc) ∧
    ∀ b ∈ written, ∃ ancestors,
      Branch Digest.zero ForkNode.parent fc.look (blockHash hasher b) ancestors

/-- **Failed appends** do no harm to the log if and only if every block in it is a first block
or comes after its parent. -/
theorem holdsWritten_iff {st₀ st : NodeState} {text₀ : Str} (hasher : HashPort)
    (sampler : SamplingPort) (addr : AddrText) (B : Block → Prop) (config : ChainConfig)
    (hrange : sampler.InRange) (hnonzero : ∀ b, B b → blockHash hasher b ≠ Digest.zero)
    (hdistinct : DistinctHeaders hasher B)
    (hstart : LogStart hasher sampler addr B config text₀ st₀)
    (happends : AllAppends AllOrNothingWritten st₀)
    (hrun : Relation.ReflTransGen (Step hasher sampler B) st₀ st) :
    ∃ text, logText st = some text ∧
      (HoldsWritten hasher sampler addr config (loggedBlocks hasher addr text) st ↔
        ParentsFirst hasher (loggedBlocks hasher addr text)) := by
  obtain ⟨text, h⟩ : ∃ text, Shadowed hasher sampler addr B config text st :=
    run_keeps (P := fun st => ∃ text, Shadowed hasher sampler addr B config text st)
      (fun _ _ ⟨_, hs⟩ hmove => hs.move hrange hnonzero hdistinct hmove) hrun
      ⟨text₀, LogStart.shadowed hstart happends⟩
  refine ⟨text, h.log, ?_, fun hfirst => ?_⟩
  · rintro ⟨chain, fc, hload, -⟩
    obtain ⟨s, hcontent, -⟩ := (initialChains_ok_iff h.log).mp hload
    exact (loadContent_accepted hcontent).parentsFirst hdistinct h.logged
  · obtain ⟨s, hload, -⟩ := h.loads hfirst
    refine ⟨_, s.forkChoice, (initialChains_ok_iff h.log).mpr ⟨s, hload, rfl, rfl⟩, fun b hb => ?_⟩
    obtain ⟨n, hn⟩ := (containsBlock_iff _).mp ((loadContent_accepted hload).known hb)
    exact (loadContent_tree hload).1.rooted _ n hn

/-! ### One failure is enough -/

/-- The block after the first one. -/
def demoChild : Block :=
  candidate toyHash demoConfig ⟨1, blockHash toyHash demoBlock, demoBlock.header.modelAfter⟩ 1 0 0

/-- The first append fails, and later ones do not. -/
def oneFailure : Disk := ⟨none, [⟨true, false, none⟩]⟩

lemma oneFailure_appends : AllAppends AllOrNothingWritten (demoNode oneFailure) := by
  intro disk hdisk io hio
  obtain rfl := Option.some.inj hdisk
  obtain rfl := List.mem_singleton.mp hio
  exact .inr (.inl rfl)

/-- An incoming block that is new and ends up known has been taken in. -/
lemma takes_in (hasher : HashPort) (sampler : SamplingPort) (block : Block)
    (source : BlockSource) (st : NodeState)
    (hnew : st.forkChoice.containsBlock (blockHash hasher block) = false)
    (hknown : (st.forkChoice.insertBlock hasher sampler block).2.containsBlock
      (blockHash hasher block) = true) :
    (applyIncomingBlock hasher sampler block source st).2.forkChoice =
        (st.forkChoice.insertBlock hasher sampler block).2 ∧
      (applyIncomingBlock hasher sampler block source st).2.storage =
        persisted hasher st.chain.config block st.storage := by
  rcases applyIncomingBlock_cases hasher sampler block source st with
    ⟨hc, -⟩ | ⟨e, hins, -⟩ | ⟨st', -, hins, hstorage, -, hr⟩
  · rw [hnew] at hc
    cases hc
  · rw [hins, hnew] at hknown
    cases hknown
  · rw [hr, hins]
    exact ⟨rfl, hstorage⟩

/-- The append of a first block fails and that of the next block does not. -/
theorem failed_append_loses_log :
    LogStart toyHash deterministicSampler demoAddr (fun b => b = demoBlock ∨ b = demoChild)
        demoConfig [] (demoNode oneFailure) ∧
      AllAppends AllOrNothingWritten (demoNode oneFailure) ∧
      ∃ st text, Relation.ReflTransGen
          (Step toyHash deterministicSampler fun b => b = demoBlock ∨ b = demoChild)
          (demoNode oneFailure) st ∧
        logText st = some text ∧
        ¬ HoldsWritten toyHash deterministicSampler demoAddr demoConfig
          (loggedBlocks toyHash demoAddr text) st := by
  have hstart : LogStart toyHash deterministicSampler demoAddr
      (fun b => b = demoBlock ∨ b = demoChild) demoConfig [] (demoNode oneFailure) :=
    freshNode_logStart _ _
  obtain ⟨hfc₁, hstorage₁⟩ := takes_in toyHash deterministicSampler demoBlock .gossip
    (demoNode oneFailure) rfl (by decide +kernel)
  have hstep₁ : Step toyHash deterministicSampler (fun b => b = demoBlock ∨ b = demoChild)
      (demoNode oneFailure) _ := .incoming demoBlock .gossip (.inl rfl)
  have hconfig₁ := Move.configured (applyIncomingBlock_move toyHash deterministicSampler
    (B := fun b => b = demoBlock ∨ b = demoChild) (.inl rfl) .gossip (demoNode oneFailure))
    hstart.configured
  generalize (applyIncomingBlock toyHash deterministicSampler demoBlock .gossip
    (demoNode oneFailure)).2 = st₁ at hfc₁ hstorage₁ hstep₁ hconfig₁
  obtain ⟨-, hstorage₂⟩ := takes_in toyHash deterministicSampler demoChild .gossip st₁
    (by rw [hfc₁]; decide +kernel) (by rw [hfc₁]; decide +kernel)
  have hstep₂ : Step toyHash deterministicSampler (fun b => b = demoBlock ∨ b = demoChild)
      st₁ _ := .incoming demoChild .gossip (.inr rfl)
  have hlog : logText (applyIncomingBlock toyHash deterministicSampler demoChild .gossip st₁).2 =
      some (entryText toyHash demoConfig demoChild true) := by
    have hnone : fromUtf8 ((none : Option Lib.ByteString.Bytes).getD []) = some [] :=
      fromUtf8_utf8 []
    have hdisk₁ : st₁.storage = some ⟨none, []⟩ := hstorage₁
    rw [hconfig₁.chain, hdisk₁, persisted, Option.map_some] at hstorage₂
    rw [logText, hstorage₂, Option.bind_some]
    refine (appendBlock_text hnone demoConfig demoChild .success).trans ?_
    rw [appendText_succeeds ⟨rfl, rfl⟩]
    rfl
  refine ⟨hstart, oneFailure_appends, _, _, .tail (.single hstep₁) hstep₂, hlog, ?_⟩
  rintro ⟨chain, fc, hload, -⟩
  obtain ⟨s, hcontent, -⟩ := (initialChains_ok_iff hlog).mp hload
  have haccepted := loadContent_accepted hcontent
  rw [loggedBlocks_entryText] at haccepted
  have hfirst : ParentsFirst toyHash [demoChild] :=
    haccepted.parentsFirst (B := (· = demoChild)) (fun b b' hb hb' _ => by rw [hb, hb'])
      fun b hb => List.mem_singleton.mp hb
  rcases hfirst [] demoChild [] rfl with hz | ⟨p, hp, -⟩
  · have hnonzero : blockHash toyHash demoBlock ≠ Digest.zero := by decide +kernel
    exact hnonzero hz
  · cases hp

/-- With one block, whose append fails, the log stays empty and loads. -/
theorem holdsWritten_one_failure :
    ∃ st text, Relation.ReflTransGen (Step toyHash deterministicSampler (· = demoBlock))
        (demoNode oneFailure) st ∧
      logText st = some text ∧
      (HoldsWritten toyHash deterministicSampler demoAddr demoConfig
          (loggedBlocks toyHash demoAddr text) st ↔
        ParentsFirst toyHash (loggedBlocks toyHash demoAddr text)) := by
  have hrun : Relation.ReflTransGen (Step toyHash deterministicSampler (· = demoBlock))
      (demoNode oneFailure) _ := .single (.incoming demoBlock .gossip rfl)
  obtain ⟨text, hlog, hiff⟩ := holdsWritten_iff toyHash deterministicSampler demoAddr
    (· = demoBlock) demoConfig deterministicSampler_inRange
    (fun b hb => by subst hb; decide +kernel) (fun b b' hb hb' _ => by rw [hb, hb'])
    (freshNode_logStart _ _) oneFailure_appends hrun
  exact ⟨_, text, hrun, hlog, hiff⟩

end Chesscoin.Failures

import Chesscoin.Replay

/-!
Restarting on the log a crash has left.

An append that a crash cuts short leaves a last line without its newline, unless the cut is
between two lines. Loading passes such a line over, but the file keeps it, and the next
append goes on writing on it. From then on the log cannot be loaded.
-/

namespace Chesscoin.Recovery

open Chesscoin.Lib.Text Chesscoin.Lib.Linked Chesscoin.Domain Chesscoin.Simulator
  Chesscoin.Validation Chesscoin.Mining Chesscoin.ForkChoice Chesscoin.ForkTree
  Chesscoin.Wire Chesscoin.Storage Chesscoin.Runtime Chesscoin.Runs Chesscoin.ActiveView
  Chesscoin.LogReplay Chesscoin.NodeLog Chesscoin.Replay Chesscoin.Adapters
open ForkChoiceState

variable {hasher : HashPort} {sampler : SamplingPort} {addr : AddrText} {B : Block → Prop}
  {config : ChainConfig} {st st₁ st₂ : NodeState}

/-! ### Crashes -/

/-- `st₁` is the node that starts on the log of `st` after a crash `cut` bytes into the append
of the block. -/
structure CrashRestart (hasher : HashPort) (sampler : SamplingPort) (addr : AddrText)
    (block : Block) (metadataFails : Bool) (cut : ℕ) (st st₁ : NodeState) : Prop where
  file : st₁.storage.map Disk.file = st.storage.map fun disk =>
    (appendBlock hasher st.chain.config block ⟨false, metadataFails, some cut⟩ disk.file).2
  loaded : initialChains hasher sampler addr st.chain.config st₁.storage =
    .ok (st₁.chain, st₁.forkChoice)

/-- After the crash before which there was the node `st`, the log of the node `st₂` loads,
with every block known before the crash, every block of a line of the crashed log, and every
block known since. -/
def Recovers (hasher : HashPort) (sampler : SamplingPort) (addr : AddrText)
    (config : ChainConfig) (crashed : Str) (st st₂ : NodeState) : Prop :=
  ∃ chain fc, initialChains hasher sampler addr config st₂.storage = .ok (chain, fc) ∧
    (∀ k, st.forkChoice.containsBlock k = true → fc.containsBlock k = true) ∧
    (∀ b ∈ loggedBlocks hasher addr crashed, fc.containsBlock (blockHash hasher b) = true) ∧
    ∀ k, st₂.forkChoice.containsBlock k = true → fc.containsBlock k = true

/-- The crashed log is the log with a part of an entry. -/
lemma CrashRestart.log {block : Block} {metadataFails : Bool} {cut : ℕ} {text : Str}
    (h : CrashRestart hasher sampler addr block metadataFails cut st st₁)
    (hlog : logText st = some text) :
    ∃ shouldWriteHeader, logText st₁ =
      some (text ++ (entryText hasher st.chain.config block shouldWriteHeader).take cut) := by
  have hfile := h.file
  cases hdisk : st.storage with
  | none =>
    rw [logText, hdisk] at hlog
    cases hlog
  | some disk =>
    rw [logText, hdisk, Option.bind_some] at hlog
    cases hdisk₁ : st₁.storage with
    | none =>
      rw [hdisk, hdisk₁] at hfile
      cases hfile
    | some disk₁ =>
      rw [hdisk, hdisk₁, Option.map_some, Option.map_some, Option.some.injEq] at hfile
      refine ⟨!metadataFails && text.isEmpty, ?_⟩
      rw [logText, hdisk₁, Option.bind_some, hfile, appendBlock_text hlog]
      rfl

/-! ### Runs -/

/-- While appends succeed, the log goes on loading as the fork choice. -/
lemma Replays.run {text : Str} (h : Replays hasher sampler addr config text st₁)
    (hrun : Relation.ReflTransGen (Step hasher sampler B) st₁ st₂) :
    ∃ text', Replays hasher sampler addr config text' st₂ := by
  refine run_keeps (P := fun st => ∃ text, Replays hasher sampler addr config text st) ?_ hrun
    ⟨text, h⟩
  rintro st st' ⟨text, hreplays⟩ hmove
  rcases hreplays.move hmove with ⟨-, hreplays'⟩ | ⟨block, shouldWriteHeader, -, -, -, hreplays'⟩
  · exact ⟨text, hreplays'⟩
  · exact ⟨_, hreplays'⟩

/-- On a log that was crashed within a line: nothing has been appended yet, or the log is
beyond loading. -/
structure Torn (hasher : HashPort) (config : ChainConfig) (crashed : Str)
    (fc : ForkChoiceState) (st : NodeState) : Prop where
  configured : Configured config st
  succeed : AllAppends Succeeds st
  log : (logText st = some crashed ∧ st.forkChoice = fc) ∨
    ∃ text, logText st = some text ∧ Merged hasher text

lemma Torn.move {crashed : Str} {fc : ForkChoiceState} (hcrashed : ¬ HasCompleteTail crashed)
    (h : Torn hasher config crashed fc st₁) (hmove : Move hasher sampler B st₁ st₂) :
    Torn hasher config crashed fc st₂ := by
  have hconfig := Move.configured hmove h.configured
  rcases h.log with ⟨hlog, hfc⟩ | ⟨text, hlog, hmerged⟩
  · obtain ⟨hio, ⟨-, hsame, hlog'⟩ | ⟨block, io, hsucceeds, -, -, -, hlog'⟩⟩ :=
      Move.log hmove ⟨rfl, rfl⟩ h.succeed h.configured hlog
    · exact ⟨hconfig, hio, .inl ⟨hlog', hsame.trans hfc⟩⟩
    · have hne : crashed.isEmpty = false := by
        rw [List.isEmpty_eq_false_iff]
        rintro rfl
        exact hcrashed (.inl rfl)
      rw [appendText_succeeds hsucceeds, hne, Bool.and_false] at hlog'
      exact ⟨hconfig, hio, .inr ⟨_, hlog', merged_entry hcrashed⟩⟩
  · obtain ⟨hio, ⟨-, -, hlog'⟩ | ⟨block, io, hsucceeds, -, -, -, hlog'⟩⟩ :=
      Move.log hmove ⟨rfl, rfl⟩ h.succeed h.configured hlog
    · exact ⟨hconfig, hio, .inr ⟨text, hlog', hmerged⟩⟩
    · rw [appendText_succeeds hsucceeds] at hlog'
      exact ⟨hconfig, hio, .inr ⟨_, hlog', hmerged.entry⟩⟩

/-- What a log that loads has of the crashed log it is, or goes on from. -/
lemma known_of_loaded {text crashed : Str} {shouldWriteHeader : Bool} {block : Block} {cut : ℕ}
    (hreplays : Replays hasher sampler addr config text st)
    (hcrashed : crashed =
      text ++ (entryText hasher st.chain.config block shouldWriteHeader).take cut)
    {s : Loaded} (hload : loadContent hasher sampler addr config crashed = .ok s) :
    (∀ k, st.forkChoice.containsBlock k = true → s.forkChoice.containsBlock k = true) ∧
      ∀ b ∈ loggedBlocks hasher addr crashed,
        s.forkChoice.containsBlock (blockHash hasher b) = true := by
  have haccepted := loadContent_accepted hload
  refine ⟨fun k hk => ?_, fun b hb => haccepted.known hb⟩
  obtain ⟨s₀, hloads, hs₀⟩ := hreplays.loads
  obtain ⟨n, hn⟩ := (containsBlock_iff k).mp hk
  have hmem := hreplays.accepted.block_mem hn
  have htree := (loadContent_tree hloads.2).1
  rw [hs₀] at htree
  rw [← (htree.stored k n hn).keyed]
  refine haccepted.known ?_
  rw [hcrashed, loggedBlocks_append hloads.1]
  exact List.mem_append_left _ hmem

/-- **Recovery from an interrupted append** works if and only if the crash has not left an
incomplete line behind, or nothing is appended after the restart. -/
theorem recovers_iff {st₀ : NodeState} {text₀ crashed : Str} (hasher : HashPort)
    (sampler : SamplingPort) (addr : AddrText) (B : Block → Prop) (config : ChainConfig)
    (block : Block) (metadataFails : Bool) (cut : ℕ)
    (hstart : LogStart hasher sampler addr B config text₀ st₀)
    (hsucceed₀ : AllAppends Succeeds st₀)
    (hrun₀ : Relation.ReflTransGen (Step hasher sampler B) st₀ st)
    (hcrash : CrashRestart hasher sampler addr block metadataFails cut st st₁)
    (hcrashed : logText st₁ = some crashed)
    (hsucceed₁ : AllAppends Succeeds st₁)
    (hrun₁ : Relation.ReflTransGen (Step hasher sampler B) st₁ st₂) :
    Recovers hasher sampler addr config crashed st st₂ ↔
      HasCompleteTail crashed ∨ logText st₂ = some crashed := by
  obtain ⟨text, hreplays⟩ := Replays.run (LogStart.replays hstart hsucceed₀) hrun₀
  obtain ⟨shouldWriteHeader, hcut⟩ := hcrash.log hreplays.log
  rw [hcrashed, Option.some.injEq] at hcut
  have hloaded := hcrash.loaded
  rw [hreplays.configured.chain] at hloaded
  obtain ⟨s, hload, hs, hchain⟩ := (initialChains_ok_iff hcrashed).mp hloaded
  obtain ⟨hbefore, hlines⟩ := known_of_loaded hreplays hcut hload
  rw [hs] at hbefore hlines
  by_cases hcomplete : HasCompleteTail crashed
  · -- the crashed log is a log like any other
    have hstart₁ : LogStart hasher sampler addr (fun _ => True) config crashed st₁ :=
      ⟨hloaded, hcrashed, hcomplete, fun _ _ => trivial⟩
    obtain ⟨text₂, hreplays₂⟩ := Replays.run (LogStart.replays hstart₁ hsucceed₁) hrun₁
    obtain ⟨s₂, hloads₂, hs₂⟩ := hreplays₂.loads
    obtain ⟨hext, -⟩ := run_grows hrun₁
    refine iff_of_true ⟨view st₂.forkChoice, st₂.forkChoice, ?_, ?_, ?_, fun _ hk => hk⟩
      (.inl hcomplete)
    · exact (initialChains_ok_iff hreplays₂.log).mpr ⟨s₂, hloads₂.2, hs₂, rfl⟩
    · exact fun k hk => containsBlock_mono hext (hbefore k hk)
    · exact fun b hb => containsBlock_mono hext (hlines b hb)
  · have hconfigured := configured_of_initialChains hcrashed hloaded
    have htorn : Torn hasher config crashed st₁.forkChoice st₂ :=
      run_keeps (fun _ _ ht hmove => Torn.move hcomplete ht hmove) hrun₁
        ⟨hconfigured, hsucceed₁, .inl ⟨hcrashed, rfl⟩⟩
    constructor
    · rintro ⟨chain, fc, hfinal, -⟩
      rcases htorn.log with ⟨hlog, -⟩ | ⟨text₂, hlog, hmerged⟩
      · exact .inr hlog
      · obtain ⟨s₂, hload₂, -⟩ := (initialChains_ok_iff hlog).mp hfinal
        obtain ⟨e, herror⟩ := hmerged.not_loads sampler addr config
        rw [herror] at hload₂
        cases hload₂
    · rintro (hcomplete' | hlog)
      · exact absurd hcomplete' hcomplete
      · rcases htorn.log with ⟨-, hfc⟩ | ⟨text₂, hlog₂, hmerged⟩
        · refine ⟨st₁.chain, st₁.forkChoice, ?_, hbefore, hlines, fun k hk => hfc ▸ hk⟩
          exact (initialChains_ok_iff hlog).mpr ⟨s, hload, hs, hchain⟩
        · rw [hlog, Option.some.injEq] at hlog₂
          subst hlog₂
          exact absurd hmerged.1 hcomplete

/-! ### One byte is enough -/

/-- A crash one byte into the first append: the restart finds an empty log, and the append
after it makes the log unloadable. -/
theorem recovery_fails_after_one_byte :
    LogStart toyHash deterministicSampler demoAddr (· = demoBlock) demoConfig []
        (demoNode ⟨none, []⟩) ∧
      AllAppends Succeeds (demoNode ⟨none, []⟩) ∧
      CrashRestart toyHash deterministicSampler demoAddr demoBlock false 1 (demoNode ⟨none, []⟩)
        (demoNode ⟨some [67], []⟩) ∧
      logText (demoNode ⟨some [67], []⟩) = some ['C'] ∧
      AllAppends Succeeds (demoNode ⟨some [67], []⟩) ∧
      ∃ st₂, Step toyHash deterministicSampler (· = demoBlock) (demoNode ⟨some [67], []⟩) st₂ ∧
        ¬ Recovers toyHash deterministicSampler demoAddr demoConfig ['C']
          (demoNode ⟨none, []⟩) st₂ := by
  refine ⟨freshNode_logStart _ _, demoNode_succeed _ rfl, ⟨rfl, rfl⟩, rfl,
    demoNode_succeed _ rfl, _, .incoming demoBlock .gossip rfl, ?_⟩
  have htorn : Torn toyHash demoConfig ['C'] (new demoConfig) (demoNode ⟨some [67], []⟩) :=
    ⟨⟨rfl, rfl⟩, demoNode_succeed _ rfl, .inl ⟨rfl, rfl⟩⟩
  have hmove := applyIncomingBlock_move toyHash deterministicSampler
    (B := (· = demoBlock)) rfl .gossip (demoNode ⟨some [67], []⟩)
  have hknown := demoNode_takes ⟨some [67], []⟩
  rcases (Torn.move (by decide) htorn hmove).log with ⟨-, hfc⟩ | ⟨text, hlog, hmerged⟩
  · rw [hfc, containsBlock_iff] at hknown
    obtain ⟨n, hn⟩ := hknown
    rw [look_new] at hn
    cases hn
  · rintro ⟨chain, fc, hfinal, -⟩
    obtain ⟨s, hload, -⟩ := (initialChains_ok_iff hlog).mp hfinal
    obtain ⟨e, herror⟩ := hmerged.not_loads deterministicSampler demoAddr
      demoConfig
    rw [herror] at hload
    cases hload

/-- A crash before the first byte does no harm. -/
theorem recovers_after_no_byte :
    ∃ st₂, Step toyHash deterministicSampler (· = demoBlock) (demoNode ⟨some [], []⟩) st₂ ∧
      Recovers toyHash deterministicSampler demoAddr demoConfig [] (demoNode ⟨none, []⟩) st₂ :=
  ⟨_, .incoming demoBlock .gossip rfl,
    (recovers_iff toyHash deterministicSampler demoAddr (· = demoBlock) demoConfig demoBlock false
      0 (freshNode_logStart _ _) (demoNode_succeed _ rfl) .refl ⟨rfl, rfl⟩ rfl
      (demoNode_succeed _ rfl) (.single (.incoming demoBlock .gossip rfl))).mpr (.inl (.inl rfl))⟩

end Chesscoin.Recovery

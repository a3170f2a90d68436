import Mathlib.Data.List.Basic
import Chesscoin.Adapters
import Chesscoin.Mining

/-!
What validation knows of a training trace.

The commitment chain and the state chain are checked at every entry, the steps themselves
only where the sampler looks. If every step is the honest one at its index, the two chains
force the trace entry by entry: each state is the one the honest run is in and each
commitment the one it makes. So a block that passes either carries the honest trace or has
a dishonest step where the sampler did not look.
-/

namespace Chesscoin.HonestTrace

open Chesscoin.Domain Chesscoin.Simulator Chesscoin.Validation Chesscoin.Mining
  Chesscoin.Adapters

variable (hasher : HashPort) (sampler : SamplingPort)

/-- The entry is the step an honest trainer takes at `index` from the state it starts in. -/
def HonestAt (seed : UInt64) (index : ℕ) (e : TraceEntry) : Prop :=
  e.step = TrainingStep.deterministic seed (UInt64.ofNat index) e.step.stateBefore

instance (seed : UInt64) (index : ℕ) (e : TraceEntry) : Decidable (HonestAt seed index e) :=
  inferInstanceAs (Decidable (_ = _))

/-! ### The two chains force an honest trace -/

lemma entries_eq_of_honest {root d : Digest} {candidate s : ModelState} {seed : UInt64}
    {es : List TraceEntry} (index : ℕ) (hcommit : Committed hasher root d es)
    (hstate : Continuous candidate s es)
    (hhonest : ∀ i e, es[i]? = some e → HonestAt seed (index + i) e) :
    buildEntries hasher seed es.length index s d = (es, candidate, root) := by
  induction es generalizing index d s with
  | nil => rw [show candidate = s from hstate, ← show d = root from hcommit]; rfl
  | cons e es ih =>
    obtain ⟨hprev, hcom, hrest⟩ := hcommit
    obtain ⟨hbefore, hafter⟩ := hstate
    have hstep : TrainingStep.deterministic seed (UInt64.ofNat index) s = e.step := by
      rw [← hbefore]
      exact (hhonest 0 e rfl).symm
    have htail : ∀ i e', es[i]? = some e' → HonestAt seed (index + 1 + i) e' := by
      intro i e' he'
      rw [show index + 1 + i = index + (i + 1) from by omega]
      exact hhonest (i + 1) e' he'
    rw [List.length_cons, buildEntries, hstep, ← hcom]
    simp only [ih (index + 1) hrest hafter htail, ← hprev]

/-- The entries of an honest run are committed to and lead from state to state. -/
lemma buildEntries_chains (seed : UInt64) (n index : ℕ) (s : ModelState) (d : Digest) :
    Committed hasher (buildEntries hasher seed n index s d).2.2 d
        (buildEntries hasher seed n index s d).1 ∧
      Continuous (buildEntries hasher seed n index s d).2.1 s
        (buildEntries hasher seed n index s d).1 := by
  induction n generalizing index s d with
  | zero => exact ⟨rfl, rfl⟩
  | succ n ih =>
    obtain ⟨hcommit, hstate⟩ := ih (index + 1)
      (TrainingStep.deterministic seed (UInt64.ofNat index) s).stateAfter
      (commitStep hasher d (TrainingStep.deterministic seed (UInt64.ofNat index) s))
    exact ⟨⟨rfl, rfl, hcommit⟩, rfl, hstate⟩

lemma buildEntries_honest (seed : UInt64) (n index : ℕ) (s : ModelState) (d : Digest) (i : ℕ)
    (e : TraceEntry) (he : (buildEntries hasher seed n index s d).1[i]? = some e) :
    HonestAt seed (index + i) e := by
  induction n generalizing index s d i with
  | zero => simp [buildEntries] at he
  | succ n ih =>
    cases i with
    | zero =>
      simp only [buildEntries, List.getElem?_cons_zero, Option.some.injEq] at he
      subst he
      rfl
    | succ i =>
      simp only [buildEntries, List.getElem?_cons_succ] at he
      rw [show index + (i + 1) = index + 1 + i from by omega]
      exact ih _ _ _ i he

/-! ### Sampled entries -/

lemma commitment_eq {root d : Digest} {es : List TraceEntry}
    (h : Committed hasher root d es) {i : ℕ} {e : TraceEntry} (he : es[i]? = some e) :
    e.commitment = commitStep hasher e.previousCommitment e.step := by
  induction es generalizing d i with
  | nil => cases he
  | cons a es ih =>
    obtain ⟨hprev, hcom, hrest⟩ := h
    cases i with
    | zero =>
      cases he
      rw [hprev, hcom]
    | succ i => exact ih hrest he

/-- In a committed trace a sample passes exactly when the entry is honest at its index. -/
lemma samplePasses_iff {block : Block} {index : ℕ} {e : TraceEntry} {root d : Digest}
    (hcommit : Committed hasher root d block.trace.entries)
    (he : block.trace.entries[index]? = some e) (hindex : index < 2 ^ 64) :
    SamplePasses hasher block index ↔ HonestAt block.header.trainingSeed index e := by
  have hself := verifySample_self hasher block.header.trainingSeed index e
    (commitment_eq hasher hcommit he)
  constructor
  · rintro ⟨e', he', hpass⟩
    rw [he] at he'
    cases he'
    obtain ⟨hidx, hstep⟩ := hself.mp hpass
    rw [HonestAt, ← hidx, UInt64.ofNat_toNat]
    exact hstep
  · intro hhonest
    have hidx : e.step.index = UInt64.ofNat index := by rw [hhonest]; rfl
    refine ⟨e, he, hself.mpr ⟨?_, ?_⟩⟩
    · rw [hidx, UInt64.toNat_ofNat', Nat.mod_eq_of_lt hindex]
    · rw [hidx]
      exact hhonest

/-- The trace an honest miner makes after `parent` from the block's seed. -/
def honestTrace (config : ChainConfig) (parent : ParentContext) (block : Block) :
    TrainingTrace :=
  buildTraceFrom hasher parent.model block.header.trainingSeed config.stepsPerBlock.toNat

/-- A valid block whose entries are all honest has the honest trace. -/
lemma trace_eq_of_honest {config : ChainConfig} {parent : ParentContext} {block : Block}
    (h : Valid hasher sampler config parent block)
    (hhonest : ∀ i e, block.trace.entries[i]? = some e →
      HonestAt block.header.trainingSeed i e) :
    block.trace = honestTrace hasher config parent block := by
  have hbuilt := entries_eq_of_honest hasher 0 h.committed h.continuous
    (fun i e he => by rw [Nat.zero_add]; exact hhonest i e he)
  rw [h.traceLength, h.initialModel, h.modelBefore] at hbuilt
  rw [honestTrace, buildTraceFrom, hbuilt, ← h.modelBefore, ← h.initialModel]

/-! ### The main results -/

lemma lt_two_pow_of_getElem? {config : ChainConfig} {es : List TraceEntry} {i : ℕ}
    {e : TraceEntry} (hlen : es.length = config.stepsPerBlock.toNat) (he : es[i]? = some e) :
    i < 2 ^ 64 := by
  obtain ⟨hi, -⟩ := List.getElem?_eq_some_iff.mp he
  have := config.stepsPerBlock.toNat_lt
  omega

/-- A valid block carries the honest trace, or a dishonest entry at an index that was not
sampled. -/
lemma honest_or_unsampled {config : ChainConfig} {parent : ParentContext} {block : Block}
    (h : Valid hasher sampler config parent block) :
    block.trace = honestTrace hasher config parent block ∨
      ∃ i e, i ∉ sampledIndices sampler block ∧ block.trace.entries[i]? = some e ∧
        ¬ HonestAt block.header.trainingSeed i e := by
  by_cases hbad : ∃ i e, block.trace.entries[i]? = some e ∧
      ¬ HonestAt block.header.trainingSeed i e
  · obtain ⟨i, e, he, hdis⟩ := hbad
    refine .inr ⟨i, e, fun hmem => hdis ?_, he, hdis⟩
    have hi := lt_two_pow_of_getElem? h.traceLength he
    exact (samplePasses_iff hasher h.committed he hi).mp (h.samples i hmem)
  · push Not at hbad
    exact .inl (trace_eq_of_honest hasher sampler h hbad)

/-- A valid block has the honest trace when as many samples are taken as there are steps. -/
lemma trace_eq_of_full {config : ChainConfig} {parent : ParentContext} {block : Block}
    (hfull : sampler.Full) (hcount : config.samplesPerBlock = config.stepsPerBlock)
    (h : Valid hasher sampler config parent block) :
    block.trace = honestTrace hasher config parent block := by
  refine trace_eq_of_honest hasher sampler h fun i e he => ?_
  obtain ⟨hi, -⟩ := List.getElem?_eq_some_iff.mp he
  have hmem : i ∈ sampledIndices sampler block := by
    rw [sampledIndices, h.sampleCount, hcount, ← h.traceLength]
    exact hfull _ _ _ i hi
  have hlt := lt_two_pow_of_getElem? h.traceLength he
  exact (samplePasses_iff hasher h.committed he hlt).mp (h.samples i hmem)

/-- The header of `block` fits the parent, the trace and the configuration, and has the
work. -/
structure HeaderFits (config : ChainConfig) (parent : ParentContext) (block : Block) : Prop where
  height : block.header.height = parent.nextHeight
  previousBlock : block.header.previousBlock = parent.hash
  modelBefore : block.header.modelBefore = parent.model
  modelAfter : block.header.modelAfter = block.trace.candidateModel
  traceRoot : block.header.traceRoot = block.trace.root
  sampleCount : block.header.sampleCount = config.samplesPerBlock
  work : config.difficultyZeroBits.toNat ≤ (blockHash hasher block).leadingZeroBits

/-- An honest trace under a fitting header passes every check, whatever is sampled. -/
lemma valid_of_honest {config : ChainConfig} {parent : ParentContext} {block : Block}
    (hrange : sampler.InRange)
    (htrace : block.trace = honestTrace hasher config parent block)
    (hfits : HeaderFits hasher config parent block) : Valid hasher sampler config parent block := by
  have hinit : block.trace.initialModel = parent.model := by rw [htrace]; rfl
  have hlen : block.trace.entries.length = config.stepsPerBlock.toNat := by
    rw [htrace]
    exact buildEntries_length hasher _ _ _ _ _
  obtain ⟨hcommit, hstate⟩ := buildEntries_chains hasher block.header.trainingSeed
    config.stepsPerBlock.toNat 0 parent.model Digest.zero
  have hcommitted : Committed hasher block.trace.root Digest.zero block.trace.entries := by
    rw [htrace]
    exact hcommit
  refine ⟨hfits.height, hfits.previousBlock, hfits.modelBefore, ?_, hfits.modelAfter.symm, hlen,
    hfits.sampleCount, hfits.traceRoot.symm, hcommitted, ?_, hfits.work, ?_⟩
  · rw [hinit, hfits.modelBefore]
  · rw [htrace]
    exact hstate
  · intro i hi
    have hlt : i < block.trace.entries.length := hrange _ _ _ _ i hi
    have he := List.getElem?_eq_getElem hlt
    refine (samplePasses_iff hasher hcommitted he (lt_two_pow_of_getElem? hlen he)).mpr ?_
    have hbuilt : (buildEntries hasher block.header.trainingSeed config.stepsPerBlock.toNat 0
        parent.model Digest.zero).1[i]? = some block.trace.entries[i] := by
      rw [← he, htrace]
      rfl
    simpa using buildEntries_honest hasher _ _ _ _ _ i _ hbuilt

/-- **Sampled validation is sound.** A block that passes after its parent carries exactly the
honest trace of its seed, or a dishonest step that was not sampled. When as many samples are
taken as there are steps, passing is having the honest trace under a fitting header. -/
theorem sampled_validation_sound (config : ChainConfig) (parent : ParentContext) (block : Block)
    (hrange : sampler.InRange) :
    (validateBlockAfter hasher sampler config parent block = .ok () →
      (block.header.modelAfter = (buildTraceFrom hasher parent.model block.header.trainingSeed
            config.stepsPerBlock.toNat).candidateModel ∧
          block.trace = buildTraceFrom hasher parent.model block.header.trainingSeed
            config.stepsPerBlock.toNat) ∨
        ∃ i e, i ∉ sampledIndices sampler block ∧ block.trace.entries[i]? = some e ∧
          e.step ≠ TrainingStep.deterministic block.header.trainingSeed (UInt64.ofNat i)
            e.step.stateBefore) ∧
    (sampler.Full → config.samplesPerBlock = config.stepsPerBlock →
      (validateBlockAfter hasher sampler config parent block = .ok () ↔
        block.trace = buildTraceFrom hasher parent.model block.header.trainingSeed
            config.stepsPerBlock.toNat ∧
          HeaderFits hasher config parent block)) := by
  rw [validateBlockAfter_ok]
  constructor
  · intro h
    refine (honest_or_unsampled hasher sampler h).imp_left fun htrace => ⟨?_, htrace⟩
    rw [← h.modelAfter, htrace]
  · intro hfull hcount
    constructor
    · intro h
      exact ⟨trace_eq_of_full hasher sampler hfull hcount h, h.height, h.previousBlock,
        h.modelBefore, h.modelAfter.symm, h.traceRoot.symm, h.sampleCount, h.work⟩
    · rintro ⟨htrace, hfits⟩
      exact valid_of_honest hasher sampler hrange htrace hfits

theorem sampled_validation_sound_first_block :
    validateBlockAfter toyHash deterministicSampler ⟨2, 2, 0⟩ ParentContext.genesis
        (candidate toyHash ⟨2, 2, 0⟩ ParentContext.genesis 7 9 0) = .ok () :=
  ((sampled_validation_sound toyHash deterministicSampler ⟨2, 2, 0⟩ ParentContext.genesis
    (candidate toyHash ⟨2, 2, 0⟩ ParentContext.genesis 7 9 0) deterministicSampler_inRange).2
    deterministicSampler_full rfl).mpr ⟨rfl, ⟨rfl, rfl, rfl, rfl, rfl, rfl, Nat.zero_le _⟩⟩

/-! ### Mined blocks -/

/-- **A mined block is valid** after the parent it was mined on. -/
theorem valid_of_mined {config : ChainConfig} {parent : ParentContext}
    {trainingSeed samplingEntropy : UInt64} {block : Block} (hrange : sampler.InRange)
    (h : mineAfter hasher config parent trainingSeed samplingEntropy = some block) :
    Valid hasher sampler config parent block := by
  obtain ⟨n, rfl, hwork⟩ := mineAfter_eq_some hasher h
  exact valid_of_honest hasher sampler hrange rfl ⟨rfl, rfl, rfl, rfl, rfl, rfl, hwork⟩

end Chesscoin.HonestTrace

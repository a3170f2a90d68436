import Chesscoin.HonestTrace

/-!
Choosing what is sampled.

Which steps of a trace are checked depends on its root and on the entropy, and the entropy is a
field of the header that the miner writes. A miner who holds a committed trace can try the
block again under one entropy after another. All checks but those of the sampled steps come
out the same each time, so that the verdict changes exactly when a dishonest step is sampled
under one entropy and none under the other.
-/

namespace Chesscoin.EntropyChoice

open Chesscoin.Domain Chesscoin.Simulator Chesscoin.Validation Chesscoin.Mining
  Chesscoin.Adapters Chesscoin.HonestTrace

variable {config : ChainConfig} {parent : ParentContext} {block : Block}

/-- The block under another entropy and another nonce. -/
def retry (block : Block) (samplingEntropy nonce : UInt64) : Block :=
  { block with header := { block.header with samplingEntropy, nonce } }

/-- The indices the sampler comes back with for the block, if it does come back. -/
def searched (block : Block) : Option (List ℕ) :=
  sampleIndices block.trace.entries.length block.header.sampleCount.toNat block.trace.root
    block.header.samplingEntropy

/-- Validation comes back and accepts the block. -/
def ReturnsOk (config : ChainConfig) (parent : ParentContext) (block : Block) : Prop :=
  validateBlockAfter toyHash deterministicSampler config parent block = .ok () ∧
    (searched block).isSome

/-- What is checked before any step is sampled. -/
structure FitsUnsampled (config : ChainConfig) (parent : ParentContext) (block : Block) :
    Prop where
  header : HeaderFits toyHash config parent block
  initialModel : block.trace.initialModel = block.header.modelBefore
  traceLength : block.trace.entries.length = config.stepsPerBlock.toNat
  committed : Committed toyHash block.trace.root Digest.zero block.trace.entries
  continuous : Continuous block.trace.candidateModel block.trace.initialModel block.trace.entries

/-- The sampler comes back, and every step it has chosen is an honest one. -/
def SampledHonest (block : Block) : Prop :=
  ∃ indices, searched block = some indices ∧
    ∀ i ∈ indices, ∀ e, block.trace.entries[i]? = some e →
      HonestAt block.header.trainingSeed i e

/-! ### The verdict -/

lemma sampledIndices_eq {indices : List ℕ} (h : searched block = some indices) :
    sampledIndices deterministicSampler block = indices := by
  have hsampled : sampledIndices deterministicSampler block = (searched block).getD [] := rfl
  rw [hsampled, h, Option.getD_some]

lemma searched_lt {indices : List ℕ} (h : searched block = some indices) :
    ∀ i ∈ indices, i < block.trace.entries.length := by
  intro i hi
  rw [← sampledIndices_eq h] at hi
  exact deterministicSampler_inRange _ _ _ _ i hi

/-- **Accepted is fitting, with only honest steps sampled.** -/
theorem returnsOk_iff :
    ReturnsOk config parent block ↔ FitsUnsampled config parent block ∧ SampledHonest block := by
  rw [ReturnsOk, validateBlockAfter_ok, Option.isSome_iff_exists]
  constructor
  · rintro ⟨h, indices, hindices⟩
    have hfits : HeaderFits toyHash config parent block :=
      ⟨h.height, h.previousBlock, h.modelBefore, h.modelAfter.symm, h.traceRoot.symm,
        h.sampleCount, h.work⟩
    refine ⟨⟨hfits, h.initialModel, h.traceLength, h.committed, h.continuous⟩, indices, hindices,
      fun i hi e he => ?_⟩
    have hpass := h.samples i (by rwa [sampledIndices_eq hindices])
    have hlt := lt_two_pow_of_getElem? h.traceLength he
    exact (samplePasses_iff toyHash h.committed he hlt).mp hpass
  · rintro ⟨h, indices, hindices, hhonest⟩
    refine ⟨⟨h.header.height, h.header.previousBlock, h.header.modelBefore, h.initialModel,
      h.header.modelAfter.symm, h.traceLength, h.header.sampleCount, h.header.traceRoot.symm,
      h.committed, h.continuous, h.header.work, fun i hi => ?_⟩, indices, hindices⟩
    rw [sampledIndices_eq hindices] at hi
    have he := List.getElem?_eq_getElem (searched_lt hindices i hi)
    have hlt := lt_two_pow_of_getElem? h.traceLength he
    exact (samplePasses_iff toyHash h.committed he hlt).mpr (hhonest i hi _ he)

/-- Another entropy and another nonce leave all but the work and the sampled steps as it was. -/
lemma FitsUnsampled.retry {samplingEntropy nonce : UInt64}
    (hwork : config.difficultyZeroBits.toNat ≤
      (blockHash toyHash (retry block samplingEntropy nonce)).leadingZeroBits)
    (h : FitsUnsampled config parent block) :
    FitsUnsampled config parent (retry block samplingEntropy nonce) :=
  ⟨⟨h.header.height, h.header.previousBlock, h.header.modelBefore, h.header.modelAfter,
    h.header.traceRoot, h.header.sampleCount, hwork⟩, h.initialModel, h.traceLength, h.committed,
    h.continuous⟩

lemma retry_retry (block : Block) (samplingEntropy nonce : UInt64) :
    retry (retry block samplingEntropy nonce) block.header.samplingEntropy block.header.nonce =
      block := rfl

lemma fitsUnsampled_retry_iff {samplingEntropy nonce : UInt64}
    (hwork : config.difficultyZeroBits.toNat ≤ (blockHash toyHash block).leadingZeroBits)
    (hwork' : config.difficultyZeroBits.toNat ≤
      (blockHash toyHash (retry block samplingEntropy nonce)).leadingZeroBits) :
    FitsUnsampled config parent (retry block samplingEntropy nonce) ↔
      FitsUnsampled config parent block := by
  constructor
  · intro h
    have hback : FitsUnsampled config parent (retry (retry block samplingEntropy nonce)
        block.header.samplingEntropy block.header.nonce) := h.retry hwork
    rwa [retry_retry] at hback
  · exact fun h => h.retry hwork'

lemma sampledHonest_congr {samplingEntropy nonce : UInt64}
    (h : searched (retry block samplingEntropy nonce) = searched block) :
    SampledHonest block ↔ SampledHonest (retry block samplingEntropy nonce) := by
  rw [SampledHonest, SampledHonest, h]
  exact Iff.rfl

/-- **Where every step is sampled there is nothing to choose.** -/
theorem verdict_same_of_every_step {samplingEntropy nonce : UInt64}
    (hwork : config.difficultyZeroBits.toNat ≤ (blockHash toyHash block).leadingZeroBits)
    (hwork' : config.difficultyZeroBits.toNat ≤
      (blockHash toyHash (retry block samplingEntropy nonce)).leadingZeroBits)
    (hevery : config.samplesPerBlock = config.stepsPerBlock) :
    ReturnsOk config parent block ↔
      ReturnsOk config parent (retry block samplingEntropy nonce) := by
  rw [returnsOk_iff, returnsOk_iff, fitsUnsampled_retry_iff hwork hwork']
  refine and_congr_right fun h => sampledHonest_congr ?_
  have hcount : block.trace.entries.length ≤ block.header.sampleCount.toNat := by
    rw [h.header.sampleCount, hevery, h.traceLength]
  have hrange : ∀ entropy, sampleIndices block.trace.entries.length
      block.header.sampleCount.toNat block.trace.root entropy =
      if block.trace.entries.length = 0 ∨ block.header.sampleCount.toNat = 0 then some []
      else some (List.range block.trace.entries.length) := by
    intro entropy
    rw [sampleIndices, if_pos hcount]
  exact (hrange samplingEntropy).trans (hrange block.header.samplingEntropy).symm

/-! ### A forged step -/

/-- The second step of an honest trace, but for where it leads: back to the beginning. -/
def forgedStep : TrainingStep :=
  { TrainingStep.deterministic 0 1 (TrainingStep.deterministic 0 0 ModelState.genesis).stateAfter
    with stateAfter := ModelState.genesis }

/-- An honest first step and the forged one after it, committed to as they should be. -/
def forgedTrace : TrainingTrace :=
  let step := TrainingStep.deterministic 0 0 ModelState.genesis
  let commitment := commitStep toyHash Digest.zero step
  let root := commitStep toyHash commitment forgedStep
  { initialModel := ModelState.genesis
    candidateModel := ModelState.genesis
    entries := [⟨Digest.zero, step, commitment⟩, ⟨commitment, forgedStep, root⟩]
    root }

def forgedBlock : Block :=
  { header :=
      { height := 0
        previousBlock := Digest.zero
        modelBefore := ModelState.genesis
        modelAfter := ModelState.genesis
        traceRoot := forgedTrace.root
        trainingSeed := 0
        samplingEntropy := 0
        sampleCount := 1
        nonce := 0 }
    trace := forgedTrace }

/-! ### The verdict on two tries -/

/-- **Entropy decides only what is sampled.** Two blocks that differ in entropy and nonce, and
that both have the work, get the same verdict if and only if they fail a check before the
sampling, or the sampled steps are all honest under both entropies or under neither. -/
theorem verdict_same_iff (config : ChainConfig) (parent : ParentContext) (block : Block)
    (samplingEntropy nonce : UInt64)
    (hwork : config.difficultyZeroBits.toNat ≤ (blockHash toyHash block).leadingZeroBits)
    (hwork' : config.difficultyZeroBits.toNat ≤
      (blockHash toyHash (retry block samplingEntropy nonce)).leadingZeroBits) :
    (ReturnsOk config parent block ↔
        ReturnsOk config parent (retry block samplingEntropy nonce)) ↔
      ¬ FitsUnsampled config parent block ∨
        (SampledHonest block ↔ SampledHonest (retry block samplingEntropy nonce)) := by
  rw [returnsOk_iff, returnsOk_iff, fitsUnsampled_retry_iff hwork hwork']
  by_cases h : FitsUnsampled config parent block
  · simp only [h, true_and, not_true_eq_false, false_or]
  · simp only [h, false_and, not_false_eq_true, true_or]

theorem verdict_same_iff_forged_block :
    ReturnsOk ⟨2, 1, 0⟩ ParentContext.genesis forgedBlock ↔
      ReturnsOk ⟨2, 1, 0⟩ ParentContext.genesis (retry forgedBlock 2 0) := by
  have hsame : searched (retry forgedBlock 2 0) = searched forgedBlock := by decide +kernel
  exact (verdict_same_iff ⟨2, 1, 0⟩ ParentContext.genesis forgedBlock 2 0 (Nat.zero_le _)
    (Nat.zero_le _)).mpr (.inr (sampledHonest_congr hsame))

/-- The forged step is found out under one entropy and passes under another. -/
theorem entropy_turns_rejection_into_acceptance :
    validateBlockAfter toyHash deterministicSampler ⟨2, 1, 0⟩ ParentContext.genesis forgedBlock =
        .error (.invalidSample 1) ∧
      ReturnsOk ⟨2, 1, 0⟩ ParentContext.genesis (retry forgedBlock 1 0) := by
  have hrejected : validateBlockAfter toyHash deterministicSampler ⟨2, 1, 0⟩
      ParentContext.genesis forgedBlock = .error (.invalidSample 1) := by decide +kernel
  have haccepted : validateBlockAfter toyHash deterministicSampler ⟨2, 1, 0⟩
      ParentContext.genesis (retry forgedBlock 1 0) = .ok () := by decide +kernel
  have hreturns : (searched (retry forgedBlock 1 0)).isSome = true := by decide +kernel
  exact ⟨hrejected, haccepted, hreturns⟩

end Chesscoin.EntropyChoice

import Chesscoin.Validation

/-!
Mining: the honest trace from the parent's model under a header whose nonce is counted up
until the header hash has the zero bits the configuration asks for.

The nonce is a 64-bit counter that wraps around, so a search over all its values that finds
none is a search that never ends.
-/

namespace Chesscoin.Mining

open Chesscoin.Domain Chesscoin.Simulator Chesscoin.Validation

variable (hasher : HashPort)

/-- The block a miner tries with one nonce. -/
def candidate (config : ChainConfig) (parent : ParentContext)
    (trainingSeed samplingEntropy nonce : UInt64) : Block :=
  let trace := buildTraceFrom hasher parent.model trainingSeed config.stepsPerBlock.toNat
  { header :=
      { height := parent.height
        previousBlock := parent.hash
        modelBefore := trace.initialModel
        modelAfter := trace.candidateModel
        traceRoot := trace.root
        trainingSeed
        samplingEntropy
        sampleCount := config.samplesPerBlock
        nonce }
    trace }

/-- The first block with the work, trying one nonce after another. -/
def tryNonces (config : ChainConfig) (parent : ParentContext)
    (trainingSeed samplingEntropy : UInt64) : ℕ → UInt64 → Option Block
  | 0, _ => none
  | fuel + 1, nonce =>
    let block := candidate hasher config parent trainingSeed samplingEntropy nonce
    if config.difficultyZeroBits.toNat ≤ (blockHash hasher block).leadingZeroBits then some block
    else tryNonces config parent trainingSeed samplingEntropy fuel (nonce + 1)

/-- `none` is a call that does not return. -/
def mineAfter (config : ChainConfig) (parent : ParentContext)
    (trainingSeed samplingEntropy : UInt64) : Option Block :=
  tryNonces hasher config parent trainingSeed samplingEntropy (2 ^ 64) 0

lemma tryNonces_eq_some {config : ChainConfig} {parent : ParentContext}
    {trainingSeed samplingEntropy nonce : UInt64} {fuel : ℕ} {block : Block}
    (h : tryNonces hasher config parent trainingSeed samplingEntropy fuel nonce = some block) :
    ∃ n, block = candidate hasher config parent trainingSeed samplingEntropy n ∧
      config.difficultyZeroBits.toNat ≤ (blockHash hasher block).leadingZeroBits := by
  induction fuel generalizing nonce with
  | zero => cases h
  | succ fuel ih =>
    simp only [tryNonces] at h
    split at h
    · next hwork =>
      cases h
      exact ⟨nonce, rfl, hwork⟩
    · exact ih h

lemma mineAfter_eq_some {config : ChainConfig} {parent : ParentContext}
    {trainingSeed samplingEntropy : UInt64} {block : Block}
    (h : mineAfter hasher config parent trainingSeed samplingEntropy = some block) :
    ∃ n, block = candidate hasher config parent trainingSeed samplingEntropy n ∧
      config.difficultyZeroBits.toNat ≤ (blockHash hasher block).leadingZeroBits :=
  tryNonces_eq_some hasher h

/-- The first nonce is taken when it has the work. -/
lemma mineAfter_of_first {config : ChainConfig} {parent : ParentContext}
    {trainingSeed samplingEntropy : UInt64}
    (h : config.difficultyZeroBits.toNat ≤ (blockHash hasher
      (candidate hasher config parent trainingSeed samplingEntropy 0)).leadingZeroBits) :
    mineAfter hasher config parent trainingSeed samplingEntropy =
      some (candidate hasher config parent trainingSeed samplingEntropy 0) := by
  rw [mineAfter, show (2 : ℕ) ^ 64 = (2 ^ 64 - 1) + 1 from by norm_num, tryNonces]
  exact if_pos h

/-- With no work asked for, the first nonce is taken. -/
lemma mineAfter_of_difficulty_zero {config : ChainConfig} (h : config.difficultyZeroBits = 0)
    (parent : ParentContext) (trainingSeed samplingEntropy : UInt64) :
    mineAfter hasher config parent trainingSeed samplingEntropy =
      some (candidate hasher config parent trainingSeed samplingEntropy 0) :=
  mineAfter_of_first hasher (by simp [h])

end Chesscoin.Mining

import Chesscoin.Domain

/-!
The protocol simulator: building a training trace, committing to its steps one after the
other, and checking one opened step.

Hashing and sampling are ports: the simulator is given a hash function on byte strings and
a choice of step indices, and everything below holds of any two.
-/

namespace Chesscoin.Simulator

open Chesscoin.Lib.ByteString Chesscoin.Lib.Text Chesscoin.Domain

structure HashPort where
  digest : Bytes → Digest

/-- The indices to check of a trace: its length, how many, its root and the entropy. -/
structure SamplingPort where
  sampleIndices : ℕ → ℕ → Digest → UInt64 → List ℕ

/-- Every index chosen is one of the trace. -/
def SamplingPort.InRange (sampler : SamplingPort) : Prop :=
  ∀ traceLen sampleCount root entropy,
    ∀ i ∈ sampler.sampleIndices traceLen sampleCount root entropy,
    i < traceLen

/-- Every index is chosen when as many are asked for as there are. -/
def SamplingPort.Full (sampler : SamplingPort) : Prop :=
  ∀ traceLen root entropy, ∀ i < traceLen, i ∈ sampler.sampleIndices traceLen traceLen root entropy

variable (hasher : HashPort)

def commitTag : Bytes := utf8 "chesscoin.commit.v1".toList

def commitPreimage (previousCommitment : Digest) (step : TrainingStep) : Bytes :=
  commitTag ++ (previousCommitment.bytes ++ step.encode)

def commitStep (previousCommitment : Digest) (step : TrainingStep) : Digest :=
  hasher.digest (commitPreimage previousCommitment step)

/-- The entries of `n` steps from `index` on, with the state and the commitment they end
in. -/
def buildEntries (seed : UInt64) : ℕ → ℕ → ModelState → Digest →
    List TraceEntry × ModelState × Digest
  | 0, _, state, previousCommitment => ([], state, previousCommitment)
  | n + 1, index, state, previousCommitment =>
    let step := TrainingStep.deterministic seed (UInt64.ofNat index) state
    let commitment := commitStep hasher previousCommitment step
    let rest := buildEntries seed n (index + 1) step.stateAfter commitment
    (⟨previousCommitment, step, commitment⟩ :: rest.1, rest.2)

def buildTraceFrom (initialModel : ModelState) (seed : UInt64) (steps : ℕ) : TrainingTrace :=
  let built := buildEntries hasher seed steps 0 initialModel Digest.zero
  { initialModel
    candidateModel := built.2.1
    entries := built.1
    root := built.2.2 }

def verifySample (seed : UInt64) (index : ℕ) (committedEntry openedEntry : TraceEntry) :
    VerificationSample :=
  let expectedStep :=
    TrainingStep.deterministic seed openedEntry.step.index openedEntry.step.stateBefore
  let expectedCommitment := commitStep hasher committedEntry.previousCommitment openedEntry.step
  { index
    commitmentOk := openedEntry.previousCommitment == committedEntry.previousCommitment &&
      openedEntry.commitment == committedEntry.commitment &&
      expectedCommitment == committedEntry.commitment
    transitionOk := openedEntry.step.index.toNat == index && expectedStep == openedEntry.step }

@[simp] lemma deterministic_stateBefore (seed index : UInt64) (s : ModelState) :
    (TrainingStep.deterministic seed index s).stateBefore = s := rfl

lemma buildEntries_length (seed : UInt64) (n index : ℕ) (s : ModelState) (d : Digest) :
    (buildEntries hasher seed n index s d).1.length = n := by
  induction n generalizing index s d with
  | zero => rfl
  | succ n ih => simp [buildEntries, ih]

/-- An entry opened as it was committed passes when its step is the honest one at its
index. -/
lemma verifySample_self (seed : UInt64) (index : ℕ) (e : TraceEntry)
    (hcommit : e.commitment = commitStep hasher e.previousCommitment e.step) :
    (verifySample hasher seed index e e).accepted = true ↔
      e.step.index.toNat = index ∧
        e.step = TrainingStep.deterministic seed e.step.index e.step.stateBefore := by
  simp only [VerificationSample.accepted, verifySample, beq_self_eq_true, Bool.true_and,
    Bool.and_eq_true, beq_iff_eq]
  constructor
  · rintro ⟨-, hidx, hstep⟩
    exact ⟨hidx, hstep.symm⟩
  · rintro ⟨hidx, hstep⟩
    exact ⟨hcommit.symm, hidx, hstep.symm⟩

end Chesscoin.Simulator

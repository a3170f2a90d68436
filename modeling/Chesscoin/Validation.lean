import Chesscoin.Simulator

/-!
Block validation: the chain configuration, the context a parent gives its child, and the
checks a block has to pass after that parent.

The checks are made in a fixed order and the first that fails names the error. What passing
all of them means is `Valid`, a structure with a field for each check.
-/

namespace Chesscoin.Validation

open Chesscoin.Lib.ByteString Chesscoin.Domain Chesscoin.Simulator

/-! ### The chain configuration -/

def maxDigestZeroBits : ℕ := 256

structure ChainConfig where
  stepsPerBlock : Usize
  samplesPerBlock : Usize
  difficultyZeroBits : UInt32
  deriving DecidableEq

inductive ChainConfigError
  | stepsPerBlockZero
  | samplesPerBlockZero
  | samplesExceedSteps (samples steps : Usize)
  | difficultyExceedsDigestBits (difficulty max : ℕ)
  deriving DecidableEq

namespace ChainConfig

def validate (c : ChainConfig) : Except ChainConfigError Unit :=
  if c.stepsPerBlock = 0 then .error .stepsPerBlockZero
  else if c.samplesPerBlock = 0 then .error .samplesPerBlockZero
  else if c.stepsPerBlock < c.samplesPerBlock then
    .error (.samplesExceedSteps c.samplesPerBlock c.stepsPerBlock)
  else if maxDigestZeroBits < c.difficultyZeroBits.toNat then
    .error (.difficultyExceedsDigestBits c.difficultyZeroBits.toNat maxDigestZeroBits)
  else .ok ()

def default : ChainConfig := ⟨16, 6, 8⟩

example : default.validate = .ok () := by decide

end ChainConfig

inductive BlockValidationError
  | wrongHeight (expected actual : UInt64)
  | wrongPreviousBlock
  | wrongModelBefore
  | wrongModelAfter
  | wrongTraceLength (expected actual : ℕ)
  | wrongSampleCount (expected actual : Usize)
  | wrongTraceContinuity (index : ℕ)
  | wrongTraceRoot
  | invalidSample (index : ℕ)
  | insufficientWork (requiredZeroBits actualZeroBits : ℕ)
  deriving DecidableEq

structure ParentContext where
  height : UInt64
  hash : Digest
  model : ModelState
  deriving DecidableEq

namespace ParentContext

def genesis : ParentContext := ⟨0, Digest.zero, ModelState.genesis⟩

/-- The height a child has to have. -/
def nextHeight (p : ParentContext) : UInt64 := p.height

end ParentContext

/-! ### The checks -/

variable (hasher : HashPort) (sampler : SamplingPort)

def headerPreimage (header : BlockHeader) : Bytes := header.encode ++ header.traceRoot.bytes

def blockHeaderHash (header : BlockHeader) : Digest := hasher.digest (headerPreimage header)

def blockHash (block : Block) : Digest := blockHeaderHash hasher block.header

/-- Each entry follows the commitment before it, and the last one is the root. -/
def validateCommitments (root : Digest) : Digest → List TraceEntry →
    Except BlockValidationError Unit
  | previousCommitment, [] =>
    if previousCommitment ≠ root then .error .wrongTraceRoot else .ok ()
  | previousCommitment, entry :: rest =>
    if entry.previousCommitment ≠ previousCommitment then .error .wrongTraceRoot
    else if entry.commitment ≠ commitStep hasher previousCommitment entry.step then
      .error .wrongTraceRoot
    else validateCommitments root entry.commitment rest

def validateCommitmentChain (block : Block) : Except BlockValidationError Unit :=
  validateCommitments hasher block.trace.root Digest.zero block.trace.entries

/-- Each step starts in the state the step before it ended in, and the last one ends in the
candidate. -/
def validateStates (candidate : ModelState) : ℕ → ModelState → List TraceEntry →
    Except BlockValidationError Unit
  | index, expectedState, [] =>
    if candidate ≠ expectedState then .error (.wrongTraceContinuity index) else .ok ()
  | index, expectedState, entry :: rest =>
    if entry.step.stateBefore ≠ expectedState then .error (.wrongTraceContinuity index)
    else validateStates candidate (index + 1) entry.step.stateAfter rest

def validateTraceContinuity (block : Block) : Except BlockValidationError Unit :=
  validateStates block.trace.candidateModel 0 block.trace.initialModel block.trace.entries

def validateSamples (block : Block) : List ℕ → Except BlockValidationError Unit
  | [] => .ok ()
  | index :: rest =>
    match block.trace.entries[index]? with
    | none => .error (.invalidSample index)
    | some entry =>
      if (verifySample hasher block.header.trainingSeed index entry entry).accepted then
        validateSamples block rest
      else .error (.invalidSample index)

def sampledIndices (block : Block) : List ℕ :=
  sampler.sampleIndices block.trace.entries.length block.header.sampleCount.toNat
    block.trace.root block.header.samplingEntropy

def validateBlockAfter (config : ChainConfig) (parent : ParentContext) (block : Block) :
    Except BlockValidationError Unit :=
  if block.header.height ≠ parent.nextHeight then
    .error (.wrongHeight parent.nextHeight block.header.height)
  else if block.header.previousBlock ≠ parent.hash then .error .wrongPreviousBlock
  else if block.header.modelBefore ≠ parent.model ∨
      block.trace.initialModel ≠ block.header.modelBefore then .error .wrongModelBefore
  else if block.trace.candidateModel ≠ block.header.modelAfter then .error .wrongModelAfter
  else if block.trace.entries.length ≠ config.stepsPerBlock.toNat then
    .error (.wrongTraceLength config.stepsPerBlock.toNat block.trace.entries.length)
  else if block.header.sampleCount ≠ config.samplesPerBlock then
    .error (.wrongSampleCount config.samplesPerBlock block.header.sampleCount)
  else if block.trace.root ≠ block.header.traceRoot then .error .wrongTraceRoot
  else match validateCommitmentChain hasher block with
    | .error e => .error e
    | .ok () => match validateTraceContinuity block with
      | .error e => .error e
      | .ok () =>
        let actualWork := (blockHash hasher block).leadingZeroBits
        if actualWork < config.difficultyZeroBits.toNat then
          .error (.insufficientWork config.difficultyZeroBits.toNat actualWork)
        else validateSamples hasher block (sampledIndices sampler block)

/-! ### What failing means -/

variable {hasher}

lemma validateCommitments_error {root d : Digest} {entries : List TraceEntry}
    {e : BlockValidationError} (h : validateCommitments hasher root d entries = .error e) :
    e = .wrongTraceRoot := by
  induction entries generalizing d with
  | nil =>
    rw [validateCommitments] at h
    split at h <;> cases h
    rfl
  | cons entry entries ih =>
    rw [validateCommitments] at h
    split at h
    · cases h
      rfl
    · split at h
      · cases h
        rfl
      · exact ih h

lemma validateStates_error {candidate s : ModelState} {i : ℕ} {entries : List TraceEntry}
    {e : BlockValidationError} (h : validateStates candidate i s entries = .error e) :
    ∃ index, e = .wrongTraceContinuity index := by
  induction entries generalizing i s with
  | nil =>
    rw [validateStates] at h
    split at h <;> cases h
    exact ⟨i, rfl⟩
  | cons entry entries ih =>
    rw [validateStates] at h
    split at h
    · cases h
      exact ⟨i, rfl⟩
    · exact ih h

lemma validateSamples_error {block : Block} {indices : List ℕ} {e : BlockValidationError}
    (h : validateSamples hasher block indices = .error e) :
    ∃ index ∈ indices, e = .invalidSample index := by
  induction indices with
  | nil => cases h
  | cons i indices ih =>
    rw [validateSamples] at h
    split at h
    · cases h
      exact ⟨i, by simp, rfl⟩
    · split at h
      · obtain ⟨index, hmem, he⟩ := ih h
        exact ⟨index, by simp [hmem], he⟩
      · cases h
        exact ⟨i, by simp, rfl⟩

variable (hasher)

/-! ### What passing means -/

/-- The entries commit to their steps in a chain from `d` to `root`. -/
def Committed (root : Digest) : Digest → List TraceEntry → Prop
  | d, [] => d = root
  | d, e :: es =>
    e.previousCommitment = d ∧ e.commitment = commitStep hasher d e.step ∧
      Committed root e.commitment es

/-- The steps lead from state to state, from `s` to `candidate`. -/
def Continuous (candidate : ModelState) : ModelState → List TraceEntry → Prop
  | s, [] => candidate = s
  | s, e :: es => e.step.stateBefore = s ∧ Continuous candidate e.step.stateAfter es

/-- The entry at `index` passes the check of a sampled step. -/
def SamplePasses (block : Block) (index : ℕ) : Prop :=
  ∃ entry, block.trace.entries[index]? = some entry ∧
    (verifySample hasher block.header.trainingSeed index entry entry).accepted = true

/-- Every check of a block after its parent, one field each. -/
structure Valid (config : ChainConfig) (parent : ParentContext) (block : Block) : Prop where
  height : block.header.height = parent.nextHeight
  previousBlock : block.header.previousBlock = parent.hash
  modelBefore : block.header.modelBefore = parent.model
  initialModel : block.trace.initialModel = block.header.modelBefore
  modelAfter : block.trace.candidateModel = block.header.modelAfter
  traceLength : block.trace.entries.length = config.stepsPerBlock.toNat
  sampleCount : block.header.sampleCount = config.samplesPerBlock
  traceRoot : block.trace.root = block.header.traceRoot
  committed : Committed hasher block.trace.root Digest.zero block.trace.entries
  continuous : Continuous block.trace.candidateModel block.trace.initialModel block.trace.entries
  work : config.difficultyZeroBits.toNat ≤ (blockHash hasher block).leadingZeroBits
  samples : ∀ index ∈ sampledIndices sampler block, SamplePasses hasher block index

lemma validateCommitments_ok (root d : Digest) (es : List TraceEntry) :
    validateCommitments hasher root d es = .ok () ↔ Committed hasher root d es := by
  induction es generalizing d with
  | nil =>
    simp only [validateCommitments, Committed]
    split <;> simp_all
  | cons e es ih =>
    simp only [validateCommitments, Committed]
    split
    · simp_all
    · split <;> simp_all

lemma validateStates_ok (candidate : ModelState) (i : ℕ) (s : ModelState)
    (es : List TraceEntry) :
    validateStates candidate i s es = .ok () ↔ Continuous candidate s es := by
  induction es generalizing i s with
  | nil =>
    simp only [validateStates, Continuous]
    split <;> simp_all
  | cons e es ih =>
    simp only [validateStates, Continuous]
    split <;> simp_all

lemma validateSamples_ok (block : Block) (is : List ℕ) :
    validateSamples hasher block is = .ok () ↔ ∀ i ∈ is, SamplePasses hasher block i := by
  induction is with
  | nil => simp [validateSamples]
  | cons i is ih =>
    rw [List.forall_mem_cons, ← ih]
    simp only [validateSamples, SamplePasses]
    cases block.trace.entries[i]? with
    | none => simp
    | some e =>
      by_cases h : (verifySample hasher block.header.trainingSeed i e e).accepted = true
      · simp [h]
      · simp [h]

/-- The sample that is refused is the first one that does not pass. -/
lemma validateSamples_refused {block : Block} {is : List ℕ} {i : ℕ}
    (h : validateSamples hasher block is = .error (.invalidSample i)) :
    ∃ before after, is = before ++ i :: after ∧ (∀ j ∈ before, SamplePasses hasher block j) ∧
      ¬ SamplePasses hasher block i := by
  induction is with
  | nil => cases h
  | cons k is ih =>
    rw [validateSamples] at h
    split at h
    · next hnone =>
      cases h
      refine ⟨[], is, rfl, fun j hj => absurd hj List.not_mem_nil, ?_⟩
      rintro ⟨entry, hentry, -⟩
      rw [hnone] at hentry
      cases hentry
    · next entry hsome =>
      split at h
      · next hpass =>
        obtain ⟨before, after, rfl, hbefore, hfails⟩ := ih h
        refine ⟨k :: before, after, rfl, ?_, hfails⟩
        rw [List.forall_mem_cons]
        exact ⟨⟨entry, hsome, hpass⟩, hbefore⟩
      · next hfails =>
        cases h
        refine ⟨[], is, rfl, fun j hj => absurd hj List.not_mem_nil, ?_⟩
        rintro ⟨entry', hentry, hpass⟩
        rw [hsome, Option.some.injEq] at hentry
        exact hfails (hentry ▸ hpass)

/-- **Passing validation is passing every check.** -/
theorem validateBlockAfter_ok (config : ChainConfig) (parent : ParentContext) (block : Block) :
    validateBlockAfter hasher sampler config parent block = .ok () ↔
      Valid hasher sampler config parent block := by
  have hcommit := validateCommitments_ok hasher block.trace.root Digest.zero block.trace.entries
  have hstates := validateStates_ok block.trace.candidateModel 0 block.trace.initialModel
    block.trace.entries
  have hsamples := validateSamples_ok hasher block (sampledIndices sampler block)
  constructor
  · intro h
    unfold validateBlockAfter at h
    split at h
    · cases h
    split at h
    · cases h
    split at h
    · cases h
    split at h
    · cases h
    split at h
    · cases h
    split at h
    · cases h
    split at h
    · cases h
    rename_i hheight hprev hbefore hafter hlen hcount hroot
    rw [not_or] at hbefore
    push Not at hheight hprev hbefore hafter hlen hcount hroot
    cases hc : validateCommitmentChain hasher block with
    | error e => rw [hc] at h; cases h
    | ok u =>
      rw [hc] at h
      cases hs : validateTraceContinuity block with
      | error e => simp only [hs] at h; cases h
      | ok v =>
        simp only [hs] at h
        split at h
        · cases h
        · next hwork =>
          exact ⟨hheight, hprev, hbefore.1, hbefore.2, hafter, hlen, hcount, hroot,
            hcommit.mp hc, hstates.mp hs, by omega, hsamples.mp h⟩
  · intro h
    have hc : validateCommitmentChain hasher block = .ok () := hcommit.mpr h.committed
    have hs : validateTraceContinuity block = .ok () := hstates.mpr h.continuous
    have hx := hsamples.mpr h.samples
    have hwork := h.work
    unfold validateBlockAfter
    rw [if_neg (not_not.mpr h.height), if_neg (not_not.mpr h.previousBlock),
      if_neg (not_or.mpr ⟨not_not.mpr h.modelBefore, not_not.mpr h.initialModel⟩),
      if_neg (not_not.mpr h.modelAfter), if_neg (not_not.mpr h.traceLength),
      if_neg (not_not.mpr h.sampleCount), if_neg (not_not.mpr h.traceRoot), hc, hs]
    simp only [not_lt.mpr hwork, if_false, hx]

end Chesscoin.Validation

import Chesscoin.Drift
import Chesscoin.Sampling

/-!
The simulation a user runs: a trace is committed to, one of its steps may be tampered with
before it is opened, and the sampled steps are checked.

Every honestly built entry passes when it is opened as it was committed. The tampered one has
its first weight raised, so it is not the step its own state leads to: it fails by its
transition alone, whatever the hash does to its commitment.
-/

namespace Chesscoin.Simulation

open Chesscoin.Domain Chesscoin.Simulator Chesscoin.Validation Chesscoin.Adapters
  Chesscoin.HonestTrace Chesscoin.Drift Chesscoin.Sampling

/-! ### Running a simulation -/

structure SimulationRequest where
  steps : Usize
  samples : Usize
  seed : UInt64
  samplingEntropy : UInt64
  tamperStep : Option Usize
  deriving DecidableEq

inductive VerificationOutcome
  | accepted
  | rejected (failedIndices : List ℕ)
  deriving DecidableEq

structure SimulationReport where
  committedTrace : TrainingTrace
  openedTrace : TrainingTrace
  sampledIndices : List ℕ
  samples : List VerificationSample
  outcome : VerificationOutcome
  tamperApplied : Option Usize
  deriving DecidableEq

/-- Addition held at the ends of the 64-bit range. -/
def saturatingAdd (a b : Int64) : Int64 :=
  let s := a.toInt + b.toInt
  if s < -2 ^ 63 then Int64.minValue
  else if 2 ^ 63 ≤ s then Int64.maxValue
  else Int64.ofInt s

def tamperTraceStep (entry : TraceEntry) : TraceEntry :=
  let weight := saturatingAdd (entry.step.stateAfter.weights.getD 0 0) 1
  { entry with
    step := { entry.step with stateAfter := entry.step.stateAfter.setWeight 0 weight } }

variable (hasher : HashPort) (sampler : SamplingPort)

def buildTrace (seed : UInt64) (steps : ℕ) : TrainingTrace :=
  buildTraceFrom hasher ModelState.genesis seed steps

/-- The samples at a list of indices; `none` is an index that is out of range. -/
def verifySamples (seed : UInt64) (committed opened : List TraceEntry) :
    List ℕ → Option (List VerificationSample)
  | [] => some []
  | index :: rest =>
    match committed[index]?, opened[index]? with
    | some committedEntry, some openedEntry =>
      (verifySamples seed committed opened rest).map
        (verifySample hasher seed index committedEntry openedEntry :: ·)
    | _, _ => none

/-- `none` is a run that ends in an index out of range. -/
def run (request : SimulationRequest) : Option SimulationReport :=
  let committedTrace := buildTrace hasher request.seed request.steps.toNat
  let tamperApplied := request.tamperStep.filter fun index =>
    index.toNat < committedTrace.entries.length
  let openedTrace := match tamperApplied with
    | none => committedTrace
    | some index => { committedTrace with
        entries := committedTrace.entries.modify index.toNat tamperTraceStep }
  let sampledIndices := sampler.sampleIndices committedTrace.entries.length
    request.samples.toNat committedTrace.root request.samplingEntropy
  (verifySamples hasher request.seed committedTrace.entries openedTrace.entries
    sampledIndices).map fun samples =>
    let failedIndices := (samples.filter fun s => !s.accepted).map (·.index)
    { committedTrace
      openedTrace
      sampledIndices
      samples
      outcome := if failedIndices.isEmpty then .accepted else .rejected failedIndices
      tamperApplied }

/-! ### Honest and tampered entries -/

/-- An entry of an honest trace passes as it was committed. -/
lemma verify_honest {seed : UInt64} {steps i : ℕ} (hsteps : steps ≤ 2 ^ 64) {e : TraceEntry}
    (he : (buildTrace hasher seed steps).entries[i]? = some e) :
    (verifySample hasher seed i e e).accepted = true := by
  have hlen : i < steps := by
    obtain ⟨hi, -⟩ := List.getElem?_eq_some_iff.mp he
    rwa [buildTrace, buildTraceFrom, buildEntries_length] at hi
  have hhonest := buildEntries_honest hasher seed steps 0 ModelState.genesis Digest.zero i e he
  have hcommit := (buildEntries_chains hasher seed steps 0 ModelState.genesis Digest.zero).1
  rw [Nat.zero_add] at hhonest
  have hindex : e.step.index = UInt64.ofNat i := by rw [hhonest]; rfl
  refine (verifySample_self hasher seed i e (commitment_eq hasher hcommit he)).mpr ⟨?_, ?_⟩
  · rw [hindex, UInt64.toNat_ofNat', Nat.mod_eq_of_lt (by omega)]
  · rw [hindex]
    exact hhonest

/-- Below the end of the range the addition is exact. -/
lemma saturatingAdd_one {a : Int64} (h : a.toInt + 1 < 2 ^ 63) :
    (saturatingAdd a 1).toInt = a.toInt + 1 := by
  have ha := a.le_toInt
  have hone : (1 : Int64).toInt = 1 := rfl
  simp only [saturatingAdd, hone]
  rw [if_neg (by omega), if_neg (by omega), Int64.toInt_ofInt_of_le (by omega) (by omega)]

/-- A tampered step that is honest before does not follow from its state any more. -/
lemma verify_tampered {seed : UInt64} {steps i : ℕ} (hsteps : steps < 2 ^ 61) {e : TraceEntry}
    (he : (buildTrace hasher seed steps).entries[i]? = some e) :
    (verifySample hasher seed i e (tamperTraceStep e)).accepted = false := by
  have hlen : i < steps := by
    obtain ⟨hi, -⟩ := List.getElem?_eq_some_iff.mp he
    rwa [buildTrace, buildTraceFrom, buildEntries_length] at hi
  have hhonest := buildEntries_honest hasher seed steps 0 ModelState.genesis Digest.zero i e he
  have hbefore := buildEntries_stateBefore hasher seed steps 0 ModelState.genesis Digest.zero i e he
  have hstep : Bounded e.step := by
    rw [hhonest]
    exact deterministic_bounded _ _ _
  -- the first weight is far from the end of the range
  have hgenesis := genesis_near 0
  have hdrift := weight_near ModelState.genesis e.step.stateBefore 0
  have hchange := hstep.change 0
  have hfar : weight e.step.stateAfter 0 + 1 < 2 ^ 63 := by omega
  have hraised : weight (tamperTraceStep e).step.stateAfter 0 = weight e.step.stateAfter 0 + 1 := by
    simp only [tamperTraceStep]
    rw [weight_setWeight _ (by decide), if_pos rfl, saturatingAdd_one hfar]
    rfl
  have hne : TrainingStep.deterministic seed e.step.index e.step.stateBefore ≠
      (tamperTraceStep e).step := by
    intro heq
    have hindex : e.step.index = UInt64.ofNat (0 + i) := by rw [hhonest]; rfl
    have hsame : e.step = (tamperTraceStep e).step := by
      rw [← heq, hindex]
      exact hhonest
    have := congrArg (fun s : TrainingStep => weight s.stateAfter 0) hsame
    simp only [hraised] at this
    omega
  rw [VerificationSample.accepted, Bool.and_eq_false_iff]
  right
  rw [verifySample, Bool.and_eq_false_iff]
  right
  exact beq_eq_false_iff_ne.mpr hne

/-! ### The verdict -/

/-- Samples in range are taken one for each index, and pass or fail as their entries do. -/
lemma verifySamples_spec (seed : UInt64) (committed opened : List TraceEntry) (bad : ℕ → Bool)
    {indices : List ℕ}
    (h : ∀ i ∈ indices, ∃ c o, committed[i]? = some c ∧ opened[i]? = some o ∧
      (verifySample hasher seed i c o).accepted = !bad i) :
    ∃ samples, verifySamples hasher seed committed opened indices = some samples ∧
      (∀ s ∈ samples, s.accepted = !bad s.index) ∧
      (samples.filter fun s => !s.accepted).map (·.index) = indices.filter bad := by
  induction indices with
  | nil => exact ⟨[], rfl, by simp, rfl⟩
  | cons i rest ih =>
    rw [List.forall_mem_cons] at h
    obtain ⟨⟨c, o, hc, ho, haccepted⟩, hrest⟩ := h
    obtain ⟨samples, hsamples, hall, hfailed⟩ := ih hrest
    have hindex : (verifySample hasher seed i c o).index = i := rfl
    refine ⟨verifySample hasher seed i c o :: samples, ?_, ?_, ?_⟩
    · simp only [verifySamples, hc, ho, hsamples, Option.map_some]
    · rw [List.forall_mem_cons]
      exact ⟨haccepted, hall⟩
    · rw [List.filter_cons, List.filter_cons, haccepted, Bool.not_not]
      cases bad i with
      | false => exact hfailed
      | true => simp only [if_true, List.map_cons, hindex, hfailed]

/-- Of different indices at most one is the given one. -/
lemma filter_eq_of_nodup {indices : List ℕ} (h : indices.Nodup) (t : ℕ) :
    indices.filter (· == t) = if t ∈ indices then [t] else [] := by
  rw [List.filter_beq]
  split
  · next hmem => rw [List.count_eq_one_of_mem h hmem, List.replicate_one]
  · next hmem => rw [List.count_eq_zero_of_not_mem hmem, List.replicate_zero]

/-- The indices a run checks. -/
def checkedIndices (request : SimulationRequest) : List ℕ :=
  let trace := buildTrace hasher request.seed request.steps.toNat
  sampler.sampleIndices trace.entries.length request.samples.toNat trace.root
    request.samplingEntropy

lemma buildTrace_length (seed : UInt64) (steps : ℕ) :
    (buildTrace hasher seed steps).entries.length = steps :=
  buildEntries_length hasher _ _ _ _ _

lemma buildTrace_get (seed : UInt64) {steps i : ℕ} (hi : i < steps) :
    ∃ e, (buildTrace hasher seed steps).entries[i]? = some e :=
  ⟨_, List.getElem?_eq_getElem (by rw [buildTrace_length]; exact hi)⟩

/-- A run without tampering accepts every sample. -/
lemma run_honest {request : SimulationRequest} (hsteps : request.steps.toNat < 2 ^ 61)
    (hrange : ∀ i ∈ checkedIndices hasher sampler request, i < request.steps.toNat)
    (htamper : ∀ i, request.tamperStep = some i → request.steps ≤ i) :
    ∃ report, run hasher sampler request = some report ∧
      report.sampledIndices = checkedIndices hasher sampler request ∧
      report.outcome = .accepted ∧ ∀ s ∈ report.samples, s.accepted = true := by
  have hnone : (request.tamperStep.filter fun index =>
      index.toNat < (buildTrace hasher request.seed request.steps.toNat).entries.length) =
        none := by
    rw [buildTrace_length]
    cases ht : request.tamperStep with
    | none => rfl
    | some t =>
      have hle : request.steps.toNat ≤ t.toNat := htamper t ht
      simp [Option.filter, hle]
  obtain ⟨samples, hsamples, hall, hfailed⟩ := verifySamples_spec hasher request.seed
    (buildTrace hasher request.seed request.steps.toNat).entries
    (buildTrace hasher request.seed request.steps.toNat).entries (fun _ => false)
    (fun i (hi : i ∈ checkedIndices hasher sampler request) => by
      obtain ⟨e, he⟩ := buildTrace_get hasher request.seed (hrange i hi)
      exact ⟨e, e, he, he, verify_honest hasher (by omega) he⟩)
  rw [List.filter_false] at hfailed
  refine ⟨_, by simp only [run, hnone]; exact congrArg _ hsamples, rfl, ?_, hall⟩
  simp only [hfailed, List.isEmpty_nil, if_true]

/-- A run that tampers with a step rejects that step when it is checked, and nothing else. -/
lemma run_tampered {request : SimulationRequest} (hsteps : request.steps.toNat < 2 ^ 61)
    (hnodup : (checkedIndices hasher sampler request).Nodup)
    (hrange : ∀ i ∈ checkedIndices hasher sampler request, i < request.steps.toNat)
    {t : Usize} (htamper : request.tamperStep = some t) (ht : t < request.steps) :
    ∃ report, run hasher sampler request = some report ∧
      report.sampledIndices = checkedIndices hasher sampler request ∧
      report.outcome =
        if t.toNat ∈ report.sampledIndices then .rejected [t.toNat] else .accepted := by
  have hlt : t.toNat < request.steps.toNat := ht
  have hsome : (request.tamperStep.filter fun index =>
      index.toNat < (buildTrace hasher request.seed request.steps.toNat).entries.length) =
      some t := by
    rw [buildTrace_length, htamper]
    simp [Option.filter, hlt]
  obtain ⟨samples, hsamples, -, hfailed⟩ := verifySamples_spec hasher request.seed
    (buildTrace hasher request.seed request.steps.toNat).entries
    ((buildTrace hasher request.seed request.steps.toNat).entries.modify t.toNat tamperTraceStep)
    (· == t.toNat) (fun i (hi : i ∈ checkedIndices hasher sampler request) => by
      obtain ⟨e, he⟩ := buildTrace_get hasher request.seed (hrange i hi)
      rw [List.getElem?_modify, he]
      by_cases hit : t.toNat = i
      · refine ⟨e, tamperTraceStep e, rfl, by simp [hit], ?_⟩
        rw [verify_tampered hasher hsteps he, hit, beq_self_eq_true]
        rfl
      · refine ⟨e, e, rfl, by simp [hit], ?_⟩
        rw [verify_honest hasher (by omega) he, beq_eq_false_iff_ne.mpr (Ne.symm hit)]
        rfl)
  rw [filter_eq_of_nodup hnodup] at hfailed
  refine ⟨_, by simp only [run, hsome]; exact congrArg _ hsamples, rfl, ?_⟩
  simp only [hfailed]
  show _ = if t.toNat ∈ checkedIndices hasher sampler request then _ else _
  split <;> rfl

/-- **The simulator's verdict is exact.** Whatever the hash and the sampler, as long as the
indices checked are different and in range: a run that tampers with no step is accepted with
every sample, and one that tampers with step `i` is rejected for `i` alone when `i` is checked
and accepted when it is not. -/
theorem simulation_verdict (request : SimulationRequest) (hsteps : request.steps.toNat < 2 ^ 61)
    (hnodup : (checkedIndices hasher sampler request).Nodup)
    (hrange : ∀ i ∈ checkedIndices hasher sampler request, i < request.steps.toNat) :
    ∃ report, run hasher sampler request = some report ∧
      report.sampledIndices = checkedIndices hasher sampler request ∧
      ((∀ i, request.tamperStep = some i → request.steps ≤ i) →
        report.outcome = .accepted ∧ ∀ s ∈ report.samples, s.accepted = true) ∧
      ∀ i, request.tamperStep = some i → i < request.steps →
        report.outcome =
          if i.toNat ∈ report.sampledIndices then .rejected [i.toNat] else .accepted := by
  by_cases htamper : ∃ i, request.tamperStep = some i ∧ i < request.steps
  · obtain ⟨t, ht, hlt⟩ := htamper
    obtain ⟨report, hrun, hindices, houtcome⟩ :=
      run_tampered hasher sampler hsteps hnodup hrange ht hlt
    refine ⟨report, hrun, hindices, fun hout => ?_, fun i hi _ => ?_⟩
    · exact absurd hlt (UInt64.not_lt.mpr (hout t ht))
    · rw [ht] at hi
      cases hi
      exact houtcome
  · have hout : ∀ i, request.tamperStep = some i → request.steps ≤ i := fun i hi =>
      UInt64.not_lt.mp fun hlt => htamper ⟨i, hi, hlt⟩
    obtain ⟨report, hrun, hindices, hverdict⟩ := run_honest hasher sampler hsteps hrange hout
    exact ⟨report, hrun, hindices, fun _ => hverdict, fun i hi hlt =>
      absurd ⟨i, hi, hlt⟩ htamper⟩

/-- The node's sampler checks different indices, all in range. -/
lemma deterministicSampler_distinct (request : SimulationRequest) :
    (checkedIndices hasher deterministicSampler request).Nodup ∧
      ∀ i ∈ checkedIndices hasher deterministicSampler request, i < request.steps.toNat := by
  constructor
  · simp only [checkedIndices, deterministicSampler]
    cases h : sampleIndices (buildTrace hasher request.seed request.steps.toNat).entries.length
        request.samples.toNat (buildTrace hasher request.seed request.steps.toNat).root
        request.samplingEntropy with
    | none => exact List.nodup_nil
    | some found =>
      rw [sampleIndices_eq] at h
      exact (sampleWithin_spec h).1.imp fun hij => Nat.ne_of_lt hij
  · intro i hi
    have hlt := deterministicSampler_inRange _ _ _ _ i hi
    rwa [buildTrace_length] at hlt

/-- The fourth of eight steps is tampered with, and all are checked. -/
theorem simulation_verdict_tampered :
    ∃ report, run toyHash deterministicSampler ⟨8, 8, 42, 2026, some 3⟩ = some report ∧
      report.outcome = .rejected [3] := by
  obtain ⟨report, hrun, hindices, -, houtcome⟩ := simulation_verdict toyHash deterministicSampler
    ⟨8, 8, 42, 2026, some 3⟩ (by decide) (deterministicSampler_distinct toyHash _).1
    (deterministicSampler_distinct toyHash _).2
  have hmem : 3 ∈ report.sampledIndices := by
    rw [hindices, checkedIndices, buildTrace_length]
    exact deterministicSampler_full _ _ _ 3 (by decide)
  refine ⟨report, hrun, ?_⟩
  rw [houtcome 3 rfl (by decide)]
  exact if_pos hmem

end Chesscoin.Simulation

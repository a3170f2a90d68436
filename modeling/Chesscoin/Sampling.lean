import Chesscoin.Adapters
import Chesscoin.Lib.Collect
import Chesscoin.Mining

/-!
How far the sampler's search can go.

The search hashes the trace root, the entropy and a counter of eight bytes, and takes its
candidate from the first lane of the hash. A byte reaches a lane only through the lane it is
absorbed in and the lane before that, so of the counter, which comes last, only three bytes
reach the first lane. The search has no more than `2 ^ 24` candidates; asked for more, it goes
on for ever. When it ends, it has as many different indices as it was asked for.
-/

namespace Chesscoin.Sampling

open Chesscoin.Lib.ByteString Chesscoin.Lib.Collect Chesscoin.Domain Chesscoin.Simulator
  Chesscoin.Validation Chesscoin.Mining Chesscoin.Adapters

variable {fuel traceLen sampleCount : ℕ} {traceRoot : Digest} {entropy : UInt64}
  {found : List ℕ}

/-! ### The loop -/

/-- A call whose loop is given so many rounds; `none` when these are not enough. -/
def sampleWithin (fuel traceLen sampleCount : ℕ) (traceRoot : Digest) (entropy : UInt64) :
    Option (List ℕ) :=
  if traceLen = 0 ∨ sampleCount = 0 then some []
  else if traceLen ≤ sampleCount then some (List.range traceLen)
  else (searchIndices traceLen sampleCount traceRoot entropy fuel 0 []).map
    (List.insertionSort (· ≤ ·))

/-- The candidate in the round with number `i`. -/
def candidateAt (traceLen : ℕ) (traceRoot : Digest) (entropy : UInt64) (i : ℕ) : ℕ :=
  sampleIndex traceLen traceRoot entropy (UInt64.ofNat i)

lemma searchIndices_eq_collect (fuel i : ℕ) (selected : List ℕ) :
    searchIndices traceLen sampleCount traceRoot entropy fuel (UInt64.ofNat i) selected =
      collect (candidateAt traceLen traceRoot entropy) sampleCount fuel i selected := by
  induction fuel generalizing i selected with
  | zero => rfl
  | succ fuel ih =>
    have hnext : UInt64.ofNat i + 1 = UInt64.ofNat (i + 1) := (UInt64.ofNat_add i 1).symm
    rw [searchIndices, collect]
    simp only [hnext, ih]
    rfl

lemma candidateAt_periodic :
    Function.Periodic (candidateAt traceLen traceRoot entropy) (2 ^ 64) := by
  intro i
  have hround : UInt64.ofNat (i + 2 ^ 64) = UInt64.ofNat i := by
    rw [← UInt64.toNat_inj, UInt64.toNat_ofNat', UInt64.toNat_ofNat', Nat.add_mod_right]
  rw [candidateAt, hround, candidateAt]

/-- The loop as a search of the library. -/
lemma sampleWithin_eq (fuel : ℕ) (hlen : ¬(traceLen = 0 ∨ sampleCount = 0))
    (hpart : ¬ traceLen ≤ sampleCount) :
    sampleWithin fuel traceLen sampleCount traceRoot entropy =
      (collect (candidateAt traceLen traceRoot entropy) sampleCount fuel 0 []).map
        (List.insertionSort (· ≤ ·)) := by
  rw [sampleWithin, if_neg hlen, if_neg hpart]
  exact congrArg _ (searchIndices_eq_collect fuel 0 [])

lemma sampleIndices_eq : sampleIndices traceLen sampleCount traceRoot entropy =
    sampleWithin (2 ^ 64) traceLen sampleCount traceRoot entropy := rfl

/-- More rounds than the counter has values change nothing. -/
lemma sampleIndices_of_within
    (h : sampleWithin fuel traceLen sampleCount traceRoot entropy = some found) :
    sampleIndices traceLen sampleCount traceRoot entropy = some found := by
  rw [sampleIndices_eq]
  by_cases hlen : traceLen = 0 ∨ sampleCount = 0
  · rw [← h, sampleWithin, if_pos hlen, sampleWithin, if_pos hlen]
  · by_cases hpart : traceLen ≤ sampleCount
    · rw [← h, sampleWithin, if_neg hlen, if_pos hpart, sampleWithin, if_neg hlen, if_pos hpart]
    · rw [sampleWithin_eq fuel hlen hpart] at h
      obtain ⟨selected, hsearch, rfl⟩ := Option.map_eq_some_iff.mp h
      rw [sampleWithin_eq _ hlen hpart,
        collect_round _ (Nat.two_pow_pos 64) candidateAt_periodic hsearch]
      rfl

/-! ### The first lane -/

/-- Of the eight bytes of a counter at the end of a text of 67 bytes only the second, the third
and the sixth reach the first lane. -/
lemma absorb_counter (lanes : Lanes) (nonce : UInt64) :
    (absorb lanes 59 (u64Le nonce)).l0 =
      absorbLane (absorbLane lanes.l0 lanes.l1 60 (UInt8.ofNat (nonce.toNat / 256)))
        (absorbLane lanes.l1 lanes.l2 61 (UInt8.ofNat (nonce.toNat / 256 / 256))) 64
        (UInt8.ofNat (nonce.toNat / 256 / 256 / 256 / 256 / 256)) := by
  simp only [u64Le, le, absorb, absorbByte, Nat.reduceAdd, Nat.reduceMod]

/-- The three bytes of a counter that reach the first lane, as one number. -/
def reachingBytes (nonce : UInt64) : ℕ :=
  nonce.toNat / 2 ^ 8 % 2 ^ 16 + 2 ^ 16 * (nonce.toNat / 2 ^ 40 % 2 ^ 8)

/-- A counter with such bytes, and zeros else. -/
def nonceOf (k : ℕ) : UInt64 := UInt64.ofNat (k % 2 ^ 16 * 2 ^ 8 + k / 2 ^ 16 * 2 ^ 40)

lemma reachingBytes_lt (nonce : UInt64) : reachingBytes nonce < 2 ^ 24 := by
  unfold reachingBytes
  omega

/-- **A candidate depends on three bytes of the counter.** -/
theorem sampleIndex_nonceOf (nonce : UInt64) :
    sampleIndex traceLen traceRoot entropy nonce =
      sampleIndex traceLen traceRoot entropy (nonceOf (reachingBytes nonce)) := by
  have hlane : ∀ n m : UInt64, UInt8.ofNat (n.toNat / 256) = UInt8.ofNat (m.toNat / 256) →
      UInt8.ofNat (n.toNat / 256 / 256) = UInt8.ofNat (m.toNat / 256 / 256) →
      UInt8.ofNat (n.toNat / 256 / 256 / 256 / 256 / 256) =
        UInt8.ofNat (m.toNat / 256 / 256 / 256 / 256 / 256) →
      sampleIndex traceLen traceRoot entropy n = sampleIndex traceLen traceRoot entropy m := by
    intro n m h₁ h₂ h₅
    have hprefix : (sampleTag ++ traceRoot.bytes ++ u64Le entropy).length = 59 := by
      have htag : sampleTag.length = 19 := by decide
      rw [List.length_append, List.length_append, htag, traceRoot.size, u64Le, le_length]
    rw [sampleIndex, sampleIndex]
    generalize sampleTag ++ traceRoot.bytes ++ u64Le entropy = before at hprefix ⊢
    rw [toyDigest_head, toyDigest_head, absorb_append, absorb_append, hprefix, Nat.zero_add,
      absorb_counter, absorb_counter, h₁, h₂, h₅]
    simp only [List.length_append, u64Le, le_length]
  have hnonce : (nonceOf (reachingBytes nonce)).toNat =
      nonce.toNat / 2 ^ 8 % 2 ^ 16 * 2 ^ 8 + nonce.toNat / 2 ^ 40 % 2 ^ 8 * 2 ^ 40 := by
    rw [nonceOf, UInt64.toNat_ofNat']
    unfold reachingBytes
    omega
  refine hlane _ _ ?_ ?_ ?_ <;> rw [hnonce, UInt8.ofNat_eq_iff_mod_eq_toNat, UInt8.toNat_ofNat'] <;>
    omega

/-! ### What a call returns -/

/-- **What a call returns**, however many rounds it takes: different indices in their order, all
in range, as many as were asked for or as there are. -/
theorem sampleWithin_spec
    (h : sampleWithin fuel traceLen sampleCount traceRoot entropy = some found) :
    found.Pairwise (· < ·) ∧ (∀ i ∈ found, i < traceLen) ∧
      found.length = min sampleCount traceLen := by
  by_cases hlen : traceLen = 0 ∨ sampleCount = 0
  · rw [sampleWithin, if_pos hlen] at h
    cases h
    refine ⟨.nil, fun i hi => (nomatch hi), ?_⟩
    rw [List.length_nil]
    omega
  · by_cases hpart : traceLen ≤ sampleCount
    · rw [sampleWithin, if_neg hlen, if_pos hpart] at h
      cases h
      exact ⟨List.pairwise_lt_range, fun i hi => List.mem_range.mp hi, by
        rw [List.length_range, min_eq_right hpart]⟩
    · rw [sampleWithin_eq fuel hlen hpart] at h
      obtain ⟨selected, hsearch, rfl⟩ := Option.map_eq_some_iff.mp h
      obtain ⟨k, rfl, hcount⟩ := collect_some _ (Nat.zero_le _) hsearch
      have hperm := List.perm_insertionSort (· ≤ ·)
        (gather (candidateAt traceLen traceRoot entropy) k)
      have hnodup := hperm.nodup_iff.mpr (gather_nodup _ k)
      refine ⟨?_, fun i hi => ?_, ?_⟩
      · have hsorted := List.pairwise_insertionSort (· ≤ ·)
          (gather (candidateAt traceLen traceRoot entropy) k)
        exact (hsorted.and hnodup).imp fun hij => lt_of_le_of_ne hij.1 hij.2
      · obtain ⟨j, rfl⟩ := mem_gather _ (hperm.mem_iff.mp hi)
        exact Nat.mod_lt _ (by omega)
      · rw [hperm.length_eq, hcount, min_eq_left (by omega)]

/-- A refused sample means that validation has come to the samples. -/
lemma validateBlockAfter_invalidSample {hasher : HashPort} {sampler : SamplingPort}
    {config : ChainConfig} {parent : ParentContext} {block : Block} {i : ℕ}
    (h : validateBlockAfter hasher sampler config parent block = .error (.invalidSample i)) :
    block.trace.entries.length = config.stepsPerBlock.toNat ∧
      block.header.sampleCount = config.samplesPerBlock ∧
      validateSamples hasher block (sampledIndices sampler block) =
        .error (.invalidSample i) := by
  unfold validateBlockAfter at h
  split at h
  · cases h
  split at h
  · cases h
  split at h
  · cases h
  split at h
  · cases h
  split at h
  · cases h
  next hlen =>
    split at h
    · cases h
    next hcount =>
      split at h
      · cases h
      split at h
      · next e hc =>
        rw [validateCommitments_error hc] at h
        cases h
      · split at h
        · next e hs =>
          obtain ⟨index, rfl⟩ := validateStates_error hs
          cases h
        · simp only at h
          split at h
          · cases h
          · exact ⟨not_not.mp hlen, not_not.mp hcount, h⟩

lemma samples_le_steps {config : ChainConfig} (h : config.validate = .ok ()) :
    config.samplesPerBlock.toNat ≤ config.stepsPerBlock.toNat := by
  unfold ChainConfig.validate at h
  split at h
  · cases h
  split at h
  · cases h
  split at h
  · cases h
  next hle => exact not_lt.mp hle

/-- **The sampler's postcondition.** Whenever a call returns, however many rounds its loop has
taken, the indices are strictly increasing, in range, and as many as were asked for or as there
are. Validation samples exactly these: a block that passes has passed at each of them, and the
sample it is refused for is the least of them that does not pass. So no sample is refused for
being out of range, and where validation comes to the samples it checks as many different
steps as are configured. -/
theorem sampler_postcondition (fuel traceLen sampleCount : ℕ) (traceRoot : Digest)
    (entropy : UInt64) (found : List ℕ)
    (h : sampleWithin fuel traceLen sampleCount traceRoot entropy = some found) :
    (found.Pairwise (· < ·) ∧ (∀ i ∈ found, i < traceLen) ∧
      found.length = min sampleCount traceLen) ∧
      ∀ hasher config parent block, block.trace.entries.length = traceLen →
        block.header.sampleCount.toNat = sampleCount → block.trace.root = traceRoot →
        block.header.samplingEntropy = entropy →
        sampledIndices deterministicSampler block = found ∧
          (validateBlockAfter hasher deterministicSampler config parent block = .ok () →
            ∀ i ∈ found, SamplePasses hasher block i) ∧
          (∀ i, validateBlockAfter hasher deterministicSampler config parent block =
            .error (.invalidSample i) →
            i < traceLen ∧ i ∈ found ∧ ¬ SamplePasses hasher block i ∧
              ∀ j ∈ found, j < i → SamplePasses hasher block j) ∧
          (validateBlockAfter hasher deterministicSampler config parent block = .ok () ∨
              (∃ i, validateBlockAfter hasher deterministicSampler config parent block =
                .error (.invalidSample i)) →
            config.validate = .ok () → found.length = config.samplesPerBlock.toNat) := by
  have hspec := sampleWithin_spec h
  refine ⟨hspec, ?_⟩
  rintro hasher config parent block rfl rfl rfl rfl
  have hsampled : sampledIndices deterministicSampler block = found := by
    change (sampleIndices _ _ _ _).getD [] = found
    rw [sampleIndices_of_within h, Option.getD_some]
  refine ⟨hsampled, fun hok => ?_, fun i hi => ?_, fun hreached hconfig => ?_⟩
  · rw [← hsampled]
    exact ((validateBlockAfter_ok _ _ _ _ _).mp hok).samples
  · obtain ⟨-, -, hrefused⟩ := validateBlockAfter_invalidSample hi
    rw [hsampled] at hrefused
    obtain ⟨before, after, rfl, hbefore, hfails⟩ := validateSamples_refused hasher hrefused
    have hmem : i ∈ before ++ i :: after := by simp
    refine ⟨hspec.2.1 i hmem, hmem, hfails, fun j hj hlt => ?_⟩
    rcases List.mem_append.mp hj with hj | hj
    · exact hbefore j hj
    · have hle : i ≤ j := by
        rcases List.mem_cons.mp hj with rfl | hj
        · exact le_refl _
        · exact (List.rel_of_pairwise_cons (List.pairwise_append.mp hspec.1).2.1 hj).le
      omega
  · have hfields : block.trace.entries.length = config.stepsPerBlock.toNat ∧
        block.header.sampleCount = config.samplesPerBlock := by
      rcases hreached with hok | ⟨i, hi⟩
      · have hvalid := (validateBlockAfter_ok _ _ _ _ _).mp hok
        exact ⟨hvalid.traceLength, hvalid.sampleCount⟩
      · obtain ⟨hlen, hcount, -⟩ := validateBlockAfter_invalidSample hi
        exact ⟨hlen, hcount⟩
    rw [hspec.2.2, hfields.1, hfields.2, min_eq_left (samples_le_steps hconfig)]

/-! A block of four steps of which two are sampled, and one that names another seed for the
same steps. -/

def sampledBlock : Block := candidate toyHash ⟨4, 2, 0⟩ ParentContext.genesis 7 9 0

def reseeded : Block :=
  { sampledBlock with header := { sampledBlock.header with trainingSeed := 8 } }

/-- The search ends, the first block passes, and the second one is refused for its first step. -/
lemma sampledBlock_sampled : (sampleWithin 300 4 2 sampledBlock.trace.root 9).isSome ∧
    validateBlockAfter toyHash deterministicSampler ⟨4, 2, 0⟩ ParentContext.genesis sampledBlock =
      .ok () ∧
    validateBlockAfter toyHash deterministicSampler ⟨4, 2, 0⟩ ParentContext.genesis reseeded =
      .error (.invalidSample 0) := by
  decide +kernel

theorem sampler_postcondition_two_of_four :
    ∃ found, sampleWithin 300 4 2 sampledBlock.trace.root 9 = some found ∧
      found.Pairwise (· < ·) ∧ found.length = 2 ∧
      (∀ i ∈ found, SamplePasses toyHash sampledBlock i) ∧
      0 ∈ found ∧ ¬ SamplePasses toyHash reseeded 0 := by
  obtain ⟨hsome, hok, hrefused⟩ := sampledBlock_sampled
  obtain ⟨found, hfound⟩ := Option.isSome_iff_exists.mp hsome
  obtain ⟨⟨hsorted, -, hlen⟩, hblocks⟩ :=
    sampler_postcondition 300 4 2 sampledBlock.trace.root 9 found hfound
  obtain ⟨-, hpass, -⟩ := hblocks toyHash ⟨4, 2, 0⟩ ParentContext.genesis sampledBlock rfl rfl
    rfl rfl
  obtain ⟨-, -, hfail, -⟩ := hblocks toyHash ⟨4, 2, 0⟩ ParentContext.genesis reseeded rfl rfl
    rfl rfl
  obtain ⟨-, hmem, hfails, -⟩ := hfail 0 hrefused
  exact ⟨found, hfound, hsorted, hlen, hpass hok, hmem, hfails⟩

/-! ### When a call returns -/

/-- The indices that a search can come to at all. -/
def candidates (traceLen : ℕ) (traceRoot : Digest) (entropy : UInt64) : Finset ℕ :=
  (Finset.range (2 ^ 24)).image fun k => sampleIndex traceLen traceRoot entropy (nonceOf k)

lemma card_candidates_le : (candidates traceLen traceRoot entropy).card ≤ 2 ^ 24 := by
  refine Finset.card_image_le.trans ?_
  rw [Finset.card_range]

/-- One round of the counter brings every candidate. -/
lemma image_candidateAt : (Finset.range (2 ^ 64)).image (candidateAt traceLen traceRoot entropy) =
    candidates traceLen traceRoot entropy := by
  ext x
  rw [Finset.mem_image, candidates, Finset.mem_image]
  constructor
  · rintro ⟨i, -, rfl⟩
    exact ⟨_, Finset.mem_range.mpr (reachingBytes_lt _), (sampleIndex_nonceOf _).symm⟩
  · rintro ⟨k, -, rfl⟩
    refine ⟨(nonceOf k).toNat, Finset.mem_range.mpr (nonceOf k).toNat_lt, ?_⟩
    rw [candidateAt, UInt64.ofNat_toNat]

/-- A search ends if and only if its candidates are enough. -/
lemma search_returns_iff (hlen : ¬(traceLen = 0 ∨ sampleCount = 0))
    (hpart : ¬ traceLen ≤ sampleCount) :
    (∃ fuel found, sampleWithin fuel traceLen sampleCount traceRoot entropy = some found) ↔
      sampleCount ≤ (candidates traceLen traceRoot entropy).card := by
  have hperiodic : Function.Periodic (candidateAt traceLen traceRoot entropy) (2 ^ 64) :=
    candidateAt_periodic
  rw [← image_candidateAt, ← collect_periodic _ (Nat.two_pow_pos 64) hperiodic]
  constructor
  · rintro ⟨fuel, found, h⟩
    rw [sampleWithin_eq fuel hlen hpart] at h
    obtain ⟨selected, hsearch, -⟩ := Option.map_eq_some_iff.mp h
    exact ⟨fuel, selected, hsearch⟩
  · rintro ⟨fuel, selected, hsearch⟩
    refine ⟨fuel, selected.insertionSort (· ≤ ·), ?_⟩
    rw [sampleWithin_eq fuel hlen hpart, hsearch]
    rfl

/-- **When the sampler returns.** Where the search is needed, it ends if and only if it is not
asked for more indices than the three bytes of the counter that reach the first lane can make
different. -/
theorem sampling_returns_iff (traceLen sampleCount : ℕ) (traceRoot : Digest) (entropy : UInt64) :
    (∃ fuel found, sampleWithin fuel traceLen sampleCount traceRoot entropy = some found) ↔
      traceLen = 0 ∨ sampleCount = 0 ∨ traceLen ≤ sampleCount ∨
        sampleCount ≤ (candidates traceLen traceRoot entropy).card := by
  by_cases hlen : traceLen = 0 ∨ sampleCount = 0
  · refine iff_of_true ⟨0, [], by rw [sampleWithin, if_pos hlen]⟩ ?_
    exact hlen.elim .inl fun h => .inr (.inl h)
  · by_cases hpart : traceLen ≤ sampleCount
    · refine iff_of_true ⟨0, List.range traceLen, ?_⟩ (.inr (.inr (.inl hpart)))
      rw [sampleWithin, if_neg hlen, if_pos hpart]
    · rw [search_returns_iff hlen hpart]
      rw [not_or] at hlen
      simp only [hlen.1, hlen.2, hpart, false_or]

/-- A configuration of `2 ^ 24 + 2` steps and `2 ^ 24 + 1` samples passes its check, and the
sampler never returns. -/
theorem sampling_does_not_return :
    ChainConfig.validate ⟨16777218, 16777217, 8⟩ = .ok () ∧
      ¬ ∃ fuel found, sampleWithin fuel 16777218 16777217 Digest.zero 0 = some found := by
  refine ⟨by decide, fun hreturns => ?_⟩
  have hcount := (search_returns_iff (by omega) (by omega)).mp hreturns
  have hcard : (candidates 16777218 Digest.zero 0).card ≤ 2 ^ 24 := card_candidates_le
  omega

end Chesscoin.Sampling

import Chesscoin.Adapters
import Chesscoin.Mining

/-!
A block hash binds the whole block.

The hash covers the header only. The header holds the trace root, the root is the last
commitment, and each commitment is the hash of the commitment before it and a step; so the
binding goes backwards through the trace, from the root to its first entry. Every step of
the way is the injectivity of a fixed-width encoding and the absence of a collision among
the strings that were hashed for the two blocks.
-/

namespace Chesscoin.HashBinding

open Chesscoin.Lib.ByteString Chesscoin.Domain Chesscoin.Simulator Chesscoin.Validation
  Chesscoin.Mining

/-! ### The encodings are injective -/

@[simp] lemma u64Le_length (x : UInt64) : (u64Le x).length = 8 := le_length 8 _
@[simp] lemma i64Le_length (x : Int64) : (i64Le x).length = 8 := le_length 8 _

lemma u64Le_inj {x y : UInt64} (h : u64Le x = u64Le y) : x = y :=
  UInt64.toNat_inj.mp (le_inj (k := 8) x.toNat_lt y.toNat_lt h)

lemma i64Le_injective : Function.Injective i64Le := by
  intro x y h
  have hbits := UInt64.toNat_inj.mp (le_inj (k := 8) x.toUInt64.toNat_lt y.toUInt64.toNat_lt h)
  rw [← Int64.toInt64_toUInt64 x, hbits, Int64.toInt64_toUInt64]

lemma modelState_encode_length (m : ModelState) : m.encode.length = 64 := by
  rw [ModelState.encode, List.length_flatMap]
  simp [m.width, modelWidth]

lemma modelState_encode_inj {m m' : ModelState} (h : m.encode = m'.encode) : m = m' := by
  obtain ⟨ws, hw⟩ := m
  obtain ⟨ws', hw'⟩ := m'
  have heq : ws = ws' := flatMap_inj i64Le_length i64Le_injective (hw.trans hw'.symm) h
  simp only [heq]

lemma digest_bytes_inj {d d' : Digest} (h : d.bytes = d'.bytes) : d = d' := by
  cases d
  cases d'
  cases h
  rfl

lemma trainingStep_encode_inj {s t : TrainingStep} (h : s.encode = t.encode) : s = t := by
  obtain ⟨index, seed, batchId, weightIndex, gradient, rate, before, after⟩ := s
  obtain ⟨index', seed', batchId', weightIndex', gradient', rate', before', after'⟩ := t
  have h := List.append_cancel_left h
  obtain ⟨h1, h⟩ := List.append_inj h (by simp)
  obtain ⟨h2, h⟩ := List.append_inj h (by simp)
  obtain ⟨h3, h⟩ := List.append_inj h (by simp)
  obtain ⟨h4, h⟩ := List.append_inj h (by simp)
  obtain ⟨h5, h⟩ := List.append_inj h (by simp)
  obtain ⟨h6, h⟩ := List.append_inj h (by simp)
  obtain ⟨h7, h8⟩ := List.append_inj h (by simp only [modelState_encode_length])
  simp only at h1 h2 h3 h4 h5 h6 h7 h8
  rw [u64Le_inj h1, u64Le_inj h2, u64Le_inj h3, u64Le_inj h4, i64Le_injective h5,
    i64Le_injective h6, modelState_encode_inj h7, modelState_encode_inj h8]

lemma blockHeader_encode_inj {a b : BlockHeader} (h : a.encode = b.encode) : a = b := by
  obtain ⟨height, previous, before, after, root, seed, entropy, count, nonce⟩ := a
  obtain ⟨height', previous', before', after', root', seed', entropy', count', nonce'⟩ := b
  have h := List.append_cancel_left h
  obtain ⟨h1, h⟩ := List.append_inj h (by simp)
  obtain ⟨h2, h⟩ := List.append_inj h (by simp only [Digest.size])
  obtain ⟨h3, h⟩ := List.append_inj h (by simp only [modelState_encode_length])
  obtain ⟨h4, h⟩ := List.append_inj h (by simp only [modelState_encode_length])
  obtain ⟨h5, h⟩ := List.append_inj h (by simp only [Digest.size])
  obtain ⟨h6, h⟩ := List.append_inj h (by simp)
  obtain ⟨h7, h⟩ := List.append_inj h (by simp)
  obtain ⟨h8, h9⟩ := List.append_inj h (by simp)
  simp only at h1 h2 h3 h4 h5 h6 h7 h8 h9
  rw [u64Le_inj h1, digest_bytes_inj h2, modelState_encode_inj h3, modelState_encode_inj h4,
    digest_bytes_inj h5, u64Le_inj h6, u64Le_inj h7, u64Le_inj h8, u64Le_inj h9]

lemma headerPreimage_inj {a b : BlockHeader} (h : headerPreimage a = headerPreimage b) :
    a = b :=
  blockHeader_encode_inj (List.append_inj' h (by simp only [Digest.size])).1

lemma commitPreimage_inj {d d' : Digest} {s t : TrainingStep}
    (h : commitPreimage d s = commitPreimage d' t) : d = d' ∧ s = t := by
  obtain ⟨hd, hs⟩ := List.append_inj (List.append_cancel_left h) (by simp only [Digest.size])
  exact ⟨digest_bytes_inj hd, trainingStep_encode_inj hs⟩

/-! ### Binding -/

variable (hasher : HashPort) (sampler : SamplingPort)

/-- The strings that are hashed for a block: its header preimage and what each of its entries
commits to. -/
def hashedStrings (block : Block) : List Bytes :=
  headerPreimage block.header ::
    block.trace.entries.map fun e => commitPreimage e.previousCommitment e.step

/-- Two different strings of the list have one digest. -/
def Collision (strings : List Bytes) : Prop :=
  ∃ x ∈ strings, ∃ y ∈ strings, x ≠ y ∧ hasher.digest x = hasher.digest y

variable {hasher} {strings : List Bytes}

lemma eq_of_not_collision (h : ¬ Collision hasher strings) {x y : Bytes} (hx : x ∈ strings)
    (hy : y ∈ strings) (hdigest : hasher.digest x = hasher.digest y) : x = y := by
  by_contra hne
  exact h ⟨x, hx, y, hy, hne, hdigest⟩

/-- Commitment chains of one length that end in one root are one chain. -/
lemma committed_inj (hfree : ¬ Collision hasher strings) {root d d' : Digest}
    {es es' : List TraceEntry} (hlen : es.length = es'.length)
    (h : Committed hasher root d es) (h' : Committed hasher root d' es')
    (hes : ∀ e ∈ es, commitPreimage e.previousCommitment e.step ∈ strings)
    (hes' : ∀ e ∈ es', commitPreimage e.previousCommitment e.step ∈ strings) :
    d = d' ∧ es = es' := by
  induction es generalizing d d' es' with
  | nil =>
    cases es' with
    | nil => exact ⟨h.trans h'.symm, rfl⟩
    | cons e' es' => simp at hlen
  | cons e es ih =>
    cases es' with
    | nil => simp at hlen
    | cons e' es' =>
      obtain ⟨hprev, hcom, hrest⟩ := h
      obtain ⟨hprev', hcom', hrest'⟩ := h'
      obtain ⟨hroot, htail⟩ := ih (by simpa using hlen) hrest hrest'
        (fun a ha => hes a (by simp [ha])) (fun a ha => hes' a (by simp [ha]))
      have hx := hes e (by simp)
      have hy := hes' e' (by simp)
      have hdigest : hasher.digest (commitPreimage e.previousCommitment e.step) =
          hasher.digest (commitPreimage e'.previousCommitment e'.step) := by
        rw [hprev, hprev']
        exact hcom.symm.trans (hroot.trans hcom')
      obtain ⟨hd, hstep⟩ := commitPreimage_inj (eq_of_not_collision hfree hx hy hdigest)
      have he : e = e' := by
        cases e
        cases e'
        simp_all
      exact ⟨hprev.symm.trans (hd.trans hprev'), by rw [he, htail]⟩

variable (hasher)

/-- **A block hash binds the whole block.** Two valid blocks with one hash are one block, or
two different strings hashed for them have the same digest. -/
theorem block_hash_binds (config : ChainConfig) (p₁ p₂ : ParentContext) (b₁ b₂ : Block)
    (h₁ : validateBlockAfter hasher sampler config p₁ b₁ = .ok ())
    (h₂ : validateBlockAfter hasher sampler config p₂ b₂ = .ok ())
    (hhash : blockHash hasher b₁ = blockHash hasher b₂) :
    b₁ = b₂ ∨ Collision hasher (hashedStrings b₁ ++ hashedStrings b₂) := by
  by_cases hfree : Collision hasher (hashedStrings b₁ ++ hashedStrings b₂)
  · exact .inr hfree
  · left
    rw [validateBlockAfter_ok] at h₁ h₂
    have hheader : b₁.header = b₂.header := by
      refine headerPreimage_inj (eq_of_not_collision hfree ?_ ?_ hhash)
      · simp [hashedStrings]
      · simp [hashedStrings]
    have hroot : b₁.trace.root = b₂.trace.root := by
      rw [h₁.traceRoot, h₂.traceRoot, hheader]
    have hlen : b₁.trace.entries.length = b₂.trace.entries.length :=
      h₁.traceLength.trans h₂.traceLength.symm
    have hcommit₂ := h₂.committed
    rw [← hroot] at hcommit₂
    obtain ⟨-, hentries⟩ := committed_inj hfree hlen h₁.committed hcommit₂
      (fun e he => List.mem_append_left _
        (List.mem_cons_of_mem _ (List.mem_map.mpr ⟨e, he, rfl⟩)))
      (fun e he => List.mem_append_right _
        (List.mem_cons_of_mem _ (List.mem_map.mpr ⟨e, he, rfl⟩)))
    have hinit : b₁.trace.initialModel = b₂.trace.initialModel := by
      rw [h₁.initialModel, h₂.initialModel, hheader]
    have hcand : b₁.trace.candidateModel = b₂.trace.candidateModel := by
      rw [h₁.modelAfter, h₂.modelAfter, hheader]
    obtain ⟨header, ⟨init, cand, entries, root⟩⟩ := b₁
    obtain ⟨header', ⟨init', cand', entries', root'⟩⟩ := b₂
    simp only at hheader hroot hentries hinit hcand
    rw [hheader, hroot, hentries, hinit, hcand]

/-- Under a hash that is always zero, two mined blocks have one hash, and a collision. -/
theorem block_hash_binds_constant_hash :
    Collision ⟨fun _ => Digest.zero⟩
      (hashedStrings (candidate ⟨fun _ => Digest.zero⟩ ⟨1, 1, 0⟩ ParentContext.genesis 1 0 0) ++
        hashedStrings (candidate ⟨fun _ => Digest.zero⟩ ⟨1, 1, 0⟩ ParentContext.genesis 2 0 0)) :=
  (block_hash_binds ⟨fun _ => Digest.zero⟩ Adapters.deterministicSampler ⟨1, 1, 0⟩
    ParentContext.genesis ParentContext.genesis
    (candidate ⟨fun _ => Digest.zero⟩ ⟨1, 1, 0⟩ ParentContext.genesis 1 0 0)
    (candidate ⟨fun _ => Digest.zero⟩ ⟨1, 1, 0⟩ ParentContext.genesis 2 0 0)
    (by decide +kernel) (by decide +kernel) rfl).resolve_left (by decide +kernel)

end Chesscoin.HashBinding

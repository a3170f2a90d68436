import Chesscoin.LogLines
import Chesscoin.HashBinding

/-!
What is hashed, and what an opened step is bound to.

Block headers, commitments and samples go through one hash function. Each input starts with
the tag of its kind and goes on with fields of fixed widths, so the inputs of all kinds
together are a prefix-free code: an input tells its kind and its arguments. The payloads of
the block log, the only other strings that are hashed, start with other letters.
-/

namespace Chesscoin.Preimages

open Chesscoin.Lib.ByteString Chesscoin.Lib.Text Chesscoin.Domain Chesscoin.Simulator
  Chesscoin.Validation Chesscoin.Adapters Chesscoin.Wire Chesscoin.Storage Chesscoin.HashBinding
  Chesscoin.LogLines

/-! ### Hash inputs -/

/-- The bytes the sampler hashes for one candidate. -/
def samplePreimage (traceRoot : Digest) (entropy nonce : UInt64) : Bytes :=
  sampleTag ++ traceRoot.bytes ++ u64Le entropy ++ u64Le nonce

lemma sampleIndex_eq (traceLen : ℕ) (traceRoot : Digest) (entropy nonce : UInt64) :
    sampleIndex traceLen traceRoot entropy nonce =
      fromLe ((toyDigest (samplePreimage traceRoot entropy nonce)).bytes.take 8) % traceLen := rfl

inductive Kind
  | header
  | commit
  | sample
  deriving DecidableEq

def Kind.tag : Kind → Bytes
  | .header => BlockHeader.tag
  | .commit => commitTag
  | .sample => sampleTag

/-- No tag is the beginning of another. -/
lemma Kind.eq_of_isPrefix {k k' : Kind} (h : k.tag <+: k'.tag ∨ k'.tag <+: k.tag) : k = k' := by
  revert h
  cases k <;> cases k' <;> decide +kernel

/-- What the protocol hashes: a header, a step under the commitment before it, or a sampling
candidate. -/
inductive HashInput
  | header (header : BlockHeader)
  | commit (previousCommitment : Digest) (step : TrainingStep)
  | sample (traceRoot : Digest) (entropy nonce : UInt64)

namespace HashInput

def kind : HashInput → Kind
  | header _ => .header
  | commit _ _ => .commit
  | sample _ _ _ => .sample

def bytes : HashInput → Bytes
  | header h => headerPreimage h
  | commit previousCommitment step => commitPreimage previousCommitment step
  | sample traceRoot entropy nonce => samplePreimage traceRoot entropy nonce

lemma tag_isPrefix (x : HashInput) : x.kind.tag <+: x.bytes := by
  cases x with
  | header h =>
    rw [bytes, headerPreimage, BlockHeader.encode, List.append_assoc]
    exact List.prefix_append _ _
  | commit d s => exact List.prefix_append _ _
  | sample root entropy nonce =>
    rw [bytes, samplePreimage, List.append_assoc, List.append_assoc]
    exact List.prefix_append _ _

/-- An input that begins another is of its kind. -/
lemma kind_eq_of_isPrefix {x y : HashInput} (h : x.bytes <+: y.bytes) : x.kind = y.kind :=
  Kind.eq_of_isPrefix
    (List.prefix_or_prefix_of_prefix (x.tag_isPrefix.trans h) y.tag_isPrefix)

end HashInput

lemma headerPreimage_length (h : BlockHeader) : (headerPreimage h).length = 289 := by
  simp only [headerPreimage, BlockHeader.encode, List.length_append, u64Le_length,
    modelState_encode_length, Digest.size]
  decide

lemma commitPreimage_length (d : Digest) (s : TrainingStep) :
    (commitPreimage d s).length = 250 := by
  simp only [commitPreimage, TrainingStep.encode, List.length_append, u64Le_length,
    i64Le_length, modelState_encode_length, Digest.size]
  decide

lemma samplePreimage_length (root : Digest) (entropy nonce : UInt64) :
    (samplePreimage root entropy nonce).length = 67 := by
  simp only [samplePreimage, List.length_append, u64Le_length, Digest.size]
  decide

lemma samplePreimage_inj {root root' : Digest} {entropy entropy' nonce nonce' : UInt64}
    (h : samplePreimage root entropy nonce = samplePreimage root' entropy' nonce') :
    root = root' ∧ entropy = entropy' ∧ nonce = nonce' := by
  obtain ⟨h, hnonce⟩ := List.append_inj' h (by simp only [u64Le_length])
  obtain ⟨h, hentropy⟩ := List.append_inj' h (by simp only [u64Le_length])
  exact ⟨digest_bytes_inj (List.append_cancel_left h), u64Le_inj hentropy, u64Le_inj hnonce⟩

/-- The inputs of all kinds are a prefix-free code. -/
lemma HashInput.eq_of_isPrefix {x y : HashInput} (h : x.bytes <+: y.bytes) : x = y := by
  have hkind := HashInput.kind_eq_of_isPrefix h
  cases x with
  | header a =>
    cases y with
    | header b =>
      have heq : headerPreimage a = headerPreimage b :=
        h.eq_of_length ((headerPreimage_length a).trans (headerPreimage_length b).symm)
      rw [headerPreimage_inj heq]
    | commit _ _ => cases hkind
    | sample _ _ _ => cases hkind
  | commit d s =>
    cases y with
    | header _ => cases hkind
    | commit d' s' =>
      have heq : commitPreimage d s = commitPreimage d' s' :=
        h.eq_of_length ((commitPreimage_length d s).trans (commitPreimage_length d' s').symm)
      obtain ⟨rfl, rfl⟩ := commitPreimage_inj heq
      rfl
    | sample _ _ _ => cases hkind
  | sample root entropy nonce =>
    cases y with
    | header _ => cases hkind
    | commit _ _ => cases hkind
    | sample root' entropy' nonce' =>
      have heq : samplePreimage root entropy nonce = samplePreimage root' entropy' nonce' :=
        h.eq_of_length ((samplePreimage_length root entropy nonce).trans
          (samplePreimage_length root' entropy' nonce').symm)
      obtain ⟨rfl, rfl, rfl⟩ := samplePreimage_inj heq
      rfl

/-! ### The payloads of the block log -/

lemma utf8_isPrefix {s t : Str} (h : s <+: t) : utf8 s <+: utf8 t := by
  obtain ⟨r, rfl⟩ := h
  exact ⟨utf8 r, (utf8_append s r).symm⟩

lemma block_isPrefix (b : Block) : utf8 "BLOCK".toList <+: utf8 (encodeBlockMessage b) := by
  rw [encodeBlockMessage_eq]
  exact utf8_isPrefix (List.prefix_append _ _)

lemma rules_isPrefix (config : ChainConfig) :
    utf8 "rules=".toList <+: utf8 (chainFingerprint config) := by
  refine utf8_isPrefix ?_
  unfold chainFingerprint
  repeat apply List.prefix_append_of_prefix
  exact List.prefix_refl _

/-- An input starts with a tag, so it is no string that starts otherwise. -/
lemma HashInput.bytes_ne {x : HashInput} {start payload : Bytes} (hstart : start <+: payload)
    (hapart : ∀ k : Kind, ¬ k.tag <+: start ∧ ¬ start <+: k.tag) : x.bytes ≠ payload := by
  intro h
  rw [← h] at hstart
  rcases List.prefix_or_prefix_of_prefix x.tag_isPrefix hstart with htag | htag
  · exact (hapart x.kind).1 htag
  · exact (hapart x.kind).2 htag

/-- **Hash inputs are injective and domain separated.** A header, a commitment and a sample
preimage are equal only when their kinds and all their arguments are; none is the beginning
of another; and none is a payload that the block log takes the checksum of. -/
theorem hash_inputs_separated (x y : HashInput) :
    (x.bytes = y.bytes → x = y) ∧ (x.bytes <+: y.bytes → x = y) ∧
      (∀ b : Block, x.bytes ≠ utf8 (encodeBlockMessage b)) ∧
      ∀ config : ChainConfig, x.bytes ≠ utf8 (chainFingerprint config) := by
  refine ⟨fun h => HashInput.eq_of_isPrefix (h ▸ List.prefix_refl _),
    HashInput.eq_of_isPrefix, fun b => HashInput.bytes_ne (block_isPrefix b) ?_,
    fun config => HashInput.bytes_ne (rules_isPrefix config) ?_⟩
  all_goals
    intro k
    cases k <;> decide +kernel

/-! ### Openings -/

variable (hasher : HashPort)

/-- **Openings are binding.** An opening that is accepted against a committed entry has the
honest step at the index it is opened at, and is the committed entry, or the two commit to
different strings with one digest. -/
theorem opening_binds (seed : UInt64) (index : ℕ) (committed opened : TraceEntry)
    (hcommit : committed.commitment =
      commitStep hasher committed.previousCommitment committed.step)
    (haccept : (verifySample hasher seed index committed opened).accepted = true) :
    opened.step = TrainingStep.deterministic seed (UInt64.ofNat index) opened.step.stateBefore ∧
      (opened = committed ∨
        (commitPreimage opened.previousCommitment opened.step ≠
            commitPreimage committed.previousCommitment committed.step ∧
          hasher.digest (commitPreimage opened.previousCommitment opened.step) =
            hasher.digest (commitPreimage committed.previousCommitment committed.step))) := by
  simp only [VerificationSample.accepted, verifySample, Bool.and_eq_true, beq_iff_eq] at haccept
  obtain ⟨⟨⟨hprevious, hcommitment⟩, hexpected⟩, hindex, hstep⟩ := haccept
  constructor
  · rw [← hindex, UInt64.ofNat_toNat]
    exact hstep.symm
  · by_cases hpre : commitPreimage opened.previousCommitment opened.step =
        commitPreimage committed.previousCommitment committed.step
    · left
      obtain ⟨-, hsame⟩ := commitPreimage_inj hpre
      obtain ⟨previous, step, commitment⟩ := opened
      obtain ⟨previous', step', commitment'⟩ := committed
      simp only at hprevious hsame hcommitment
      rw [hprevious, hsame, hcommitment]
    · right
      refine ⟨hpre, ?_⟩
      rw [hprevious]
      exact hexpected.trans hcommit

/-- Under a hash that is always zero, the honest step opens a commitment to another one, and
the two collide. -/
theorem opening_binds_constant_hash :
    commitPreimage Digest.zero (TrainingStep.deterministic 1 0 ModelState.genesis) ≠
        commitPreimage Digest.zero (TrainingStep.deterministic 2 0 ModelState.genesis) ∧
      Digest.zero = Digest.zero :=
  (opening_binds ⟨fun _ => Digest.zero⟩ 1 0
    ⟨Digest.zero, TrainingStep.deterministic 2 0 ModelState.genesis, Digest.zero⟩
    ⟨Digest.zero, TrainingStep.deterministic 1 0 ModelState.genesis, Digest.zero⟩
    rfl (by decide +kernel)).2.resolve_left (by decide +kernel)

end Chesscoin.Preimages

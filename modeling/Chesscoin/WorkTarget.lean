import Chesscoin.ForkChoice

/-!
What the leading zero bits of a digest measure.

A digest read as a number, most significant byte first, has `k` leading zero bits when it is
below `2 ^ (256 - k)`: the work check is a comparison with a target. The tie-break between
tips compares the bytes of two digests, which is the order of the same numbers.
-/

namespace Chesscoin.WorkTarget

open Chesscoin.Lib Chesscoin.Lib.ByteString Chesscoin.Domain Chesscoin.Domain.Digest
  Chesscoin.ForkChoice

/-! ### One byte -/

lemma leadingZeros_le {b : UInt8} (hb : b ≠ 0) : leadingZeros b ≤ 7 := by
  rw [leadingZeros, if_neg hb]
  omega

lemma toNat_ne_zero {b : UInt8} (hb : b ≠ 0) : b.toNat ≠ 0 := by
  intro h
  exact hb (UInt8.toNat_inj.mp h)

/-- A nonzero byte has `k` leading zeros when it is below `2 ^ (8 - k)`. -/
lemma le_leadingZeros {b : UInt8} (hb : b ≠ 0) {k : ℕ} (hk : k ≤ 8) :
    k ≤ leadingZeros b ↔ b.toNat < 2 ^ (8 - k) := by
  have hlog : Nat.log2 b.toNat < 8 := (Nat.log2_lt (toNat_ne_zero hb)).mpr b.toNat_lt
  rw [← Nat.log2_lt (toNat_ne_zero hb), leadingZeros, if_neg hb]
  omega

/-! ### Byte strings -/

lemma two_pow_bytes (n : ℕ) : 2 ^ (8 * n) = 256 ^ n := pow_mul 2 8 n

lemma be_lt_two_pow (bs : Bytes) : be bs < 2 ^ (8 * bs.length) := by
  rw [two_pow_bytes]
  exact be_lt bs

/-- Below a multiple of the weight of the first byte, only the first byte counts. -/
lemma be_cons_lt_mul (b : UInt8) (bs : Bytes) (c : ℕ) :
    be (b :: bs) < c * 256 ^ bs.length ↔ b.toNat < c := by
  have hrest := be_lt bs
  constructor
  · intro h
    by_contra hc
    have : c * 256 ^ bs.length ≤ b.toNat * 256 ^ bs.length :=
      Nat.mul_le_mul_right _ (Nat.le_of_not_lt hc)
    simp only [be] at h
    omega
  · intro h
    calc be (b :: bs) = b.toNat * 256 ^ bs.length + be bs := rfl
      _ < b.toNat * 256 ^ bs.length + 256 ^ bs.length := by omega
      _ = (b.toNat + 1) * 256 ^ bs.length := by ring
      _ ≤ c * 256 ^ bs.length := Nat.mul_le_mul_right _ h

/-- The count of leading zero bits as a bound on the number, for strings of any length. -/
lemma le_leadingZeroBitsFrom {bs : Bytes} {k : ℕ} (hk : k ≤ 8 * bs.length) :
    k ≤ leadingZeroBitsFrom bs ↔ be bs < 2 ^ (8 * bs.length - k) := by
  induction bs generalizing k with
  | nil =>
    have : k = 0 := by simpa using hk
    simp [this, be]
  | cons b bs ih =>
    rw [List.length_cons] at hk ⊢
    by_cases hb : b = 0
    · subst hb
      have hbe : be (0 :: bs) = be bs := by simp [be]
      rw [leadingZeroBitsFrom, if_pos rfl, hbe]
      rcases Nat.lt_or_ge k 8 with h8 | h8
      · -- the target is beyond what the other bytes can write
        have hpow : 2 ^ (8 * bs.length) ≤ 2 ^ (8 * (bs.length + 1) - k) :=
          Nat.pow_le_pow_right (by omega) (by omega)
        have := be_lt_two_pow bs
        constructor <;> intro <;> omega
      · obtain ⟨j, rfl⟩ := Nat.exists_eq_add_of_le h8
        rw [Nat.add_le_add_iff_left, ih (by omega),
          show 8 * (bs.length + 1) - (8 + j) = 8 * bs.length - j by omega]
    · rw [leadingZeroBitsFrom, if_neg hb]
      rcases Nat.lt_or_ge 8 k with h8 | h8
      · -- the first byte alone is above the target
        have hge : 2 ^ (8 * (bs.length + 1) - k) ≤ 1 * 256 ^ bs.length := by
          rw [one_mul, ← two_pow_bytes]
          exact Nat.pow_le_pow_right (by omega) (by omega)
        have hbe : ¬ be (b :: bs) < 1 * 256 ^ bs.length := by
          rw [be_cons_lt_mul]
          have := toNat_ne_zero hb
          omega
        have := leadingZeros_le hb
        constructor <;> intro <;> omega
      · have hpow : 2 ^ (8 * (bs.length + 1) - k) = 2 ^ (8 - k) * 256 ^ bs.length := by
          rw [← two_pow_bytes, ← pow_add]
          congr 1
          omega
        rw [hpow, be_cons_lt_mul, le_leadingZeros hb h8]

lemma leadingZeroBitsFrom_le (bs : Bytes) : leadingZeroBitsFrom bs ≤ 8 * bs.length := by
  induction bs with
  | nil => exact Nat.le_refl _
  | cons b bs ih =>
    rw [leadingZeroBitsFrom, List.length_cons]
    split
    · omega
    · next hb =>
      have := leadingZeros_le hb
      omega

/-! ### Digests -/

/-- The number a digest writes. -/
def value (d : Digest) : ℕ := be d.bytes

lemma leadingZeroBits_le (d : Digest) : d.leadingZeroBits ≤ 256 := by
  have := leadingZeroBitsFrom_le d.bytes
  rwa [d.size] at this

lemma le_leadingZeroBits (d : Digest) {k : ℕ} (hk : k ≤ 256) :
    k ≤ d.leadingZeroBits ↔ value d < 2 ^ (256 - k) := by
  have hk' : k ≤ 8 * d.bytes.length := by
    rw [d.size]
    exact hk
  have := le_leadingZeroBitsFrom hk'
  rwa [d.size] at this

lemma cmp_digests (a b : Digest) : ByteString.cmp a.bytes b.bytes = compare (value a) (value b) :=
  cmp_eq_compare (a.size.trans b.size.symm)

/-- More leading zero bits make a smaller number. -/
lemma value_lt {a b : Digest} (h : b.leadingZeroBits < a.leadingZeroBits) :
    value a < value b := by
  have ha := leadingZeroBits_le a
  have hsmall : value a < 2 ^ (256 - (b.leadingZeroBits + 1)) :=
    (le_leadingZeroBits a (by omega)).mp h
  have hlarge : ¬ value b < 2 ^ (256 - (b.leadingZeroBits + 1)) := by
    rw [← le_leadingZeroBits b (by omega)]
    omega
  omega

/-- Between tips of one score and height the tie-break takes the larger number. -/
lemma isBetterTip_tie {candidate best : ForkNode} (hscore : candidate.workScore = best.workScore)
    (hheight : candidate.nextHeight = best.nextHeight) :
    isBetterTip candidate best = decide (value best.hash < value candidate.hash) := by
  have hs : compare candidate.workScore best.workScore = .eq := compare_eq_iff_eq.mpr hscore
  have hh : compare candidate.nextHeight.toNat best.nextHeight.toNat = .eq :=
    compare_eq_iff_eq.mpr (congrArg UInt64.toNat hheight)
  rw [isBetterTip, hs, hh, cmp_digests]
  rcases Nat.lt_trichotomy (value best.hash) (value candidate.hash) with h | h | h
  · rw [compare_gt_iff_gt.mpr h, decide_eq_true h]
    rfl
  · rw [h, compare_eq_iff_eq.mpr rfl, decide_eq_false (Nat.lt_irrefl _)]
    rfl
  · rw [compare_lt_iff_lt.mpr h, decide_eq_false (by omega)]
    rfl

/-- **Leading zero bits measure a numeric target.** A digest has `k` leading zero bits when
its number is below `2 ^ (256 - k)`; the bytes of digests are ordered as their numbers; and of
two digests the one with more leading zero bits has the smaller number, and loses the
tie-break between tips of one score and height. -/
theorem leadingZeroBits_target (a b : Digest) :
    (∀ k ≤ 256, k ≤ a.leadingZeroBits ↔ value a < 2 ^ (256 - k)) ∧
      ByteString.cmp a.bytes b.bytes = compare (value a) (value b) ∧
      (b.leadingZeroBits < a.leadingZeroBits →
        value a < value b ∧
          ∀ candidate best : ForkNode, candidate.workScore = best.workScore →
            candidate.nextHeight = best.nextHeight →
            (candidate.hash = a → best.hash = b → isBetterTip candidate best = false) ∧
            (candidate.hash = b → best.hash = a → isBetterTip candidate best = true)) := by
  refine ⟨fun k hk => le_leadingZeroBits a hk, cmp_digests a b, fun hbits => ?_⟩
  have hvalue := value_lt hbits
  refine ⟨hvalue, fun candidate best hscore hheight => ⟨fun hc hb => ?_, fun hc hb => ?_⟩⟩
  · rw [isBetterTip_tie hscore hheight, hc, hb]
    exact decide_eq_false (by omega)
  · rw [isBetterTip_tie hscore hheight, hc, hb]
    exact decide_eq_true hvalue

end Chesscoin.WorkTarget

import Mathlib.Tactic.Ring
import Mathlib.Tactic.Linarith

/-!
Byte strings of fixed width: the little-endian digits of a number, and the order of
strings by their first difference.

Two facts are all a protocol needs of a fixed-width code: it has its width, so what
follows it can be found again, and it is injective on the numbers that fit. Strings of one
length are ordered by their first difference exactly as the numbers they write with the
most significant byte first.
-/

namespace Chesscoin.Lib.ByteString

abbrev Bytes := List UInt8

/-- The `k` low bytes of a number, least significant first. -/
def le : ℕ → ℕ → Bytes
  | 0, _ => []
  | k + 1, n => UInt8.ofNat n :: le k (n / 256)

@[simp] lemma le_length (k n : ℕ) : (le k n).length = k := by
  induction k generalizing n with
  | zero => rfl
  | succ k ih => simp [le, ih]

lemma le_append (j k n : ℕ) : le (j + k) n = le j n ++ le k (n / 256 ^ j) := by
  induction j generalizing n with
  | zero => simp [le]
  | succ j ih =>
    rw [Nat.add_right_comm, le, le, ih, List.cons_append, Nat.div_div_eq_div_mul, pow_succ,
      Nat.mul_comm 256]

lemma le_inj {k n m : ℕ} (hn : n < 256 ^ k) (hm : m < 256 ^ k) (h : le k n = le k m) :
    n = m := by
  induction k generalizing n m with
  | zero => simp only [Nat.pow_zero] at hn hm; omega
  | succ k ih =>
    simp only [le, List.cons.injEq] at h
    obtain ⟨hlow, hrest⟩ := h
    have hmod : n % 256 = m % 256 := by
      have := congrArg UInt8.toNat hlow
      simpa using this
    have hdiv : n / 256 = m / 256 := by
      refine ih ?_ ?_ hrest
      · exact Nat.div_lt_of_lt_mul (by rw [pow_succ] at hn; linarith)
      · exact Nat.div_lt_of_lt_mul (by rw [pow_succ] at hm; linarith)
    omega

/-- Pieces of one width can be told apart again, so joining them is injective. -/
lemma flatMap_inj {α : Type*} {f : α → Bytes} {w : ℕ} (hw : ∀ a, (f a).length = w)
    (hf : Function.Injective f) {as bs : List α} (hlen : as.length = bs.length)
    (h : as.flatMap f = bs.flatMap f) : as = bs := by
  induction as generalizing bs with
  | nil =>
    cases bs with
    | nil => rfl
    | cons b bs => simp at hlen
  | cons a as ih =>
    cases bs with
    | nil => simp at hlen
    | cons b bs =>
      rw [List.flatMap_cons, List.flatMap_cons] at h
      obtain ⟨hab, hrest⟩ := List.append_inj h (by rw [hw, hw])
      rw [hf hab, ih (by simpa using hlen) hrest]

/-- The order of byte strings by their first difference, a proper prefix being smaller. -/
def cmp : Bytes → Bytes → Ordering
  | [], [] => .eq
  | [], _ :: _ => .lt
  | _ :: _, [] => .gt
  | a :: as, b :: bs => (compare a.toNat b.toNat).then (cmp as bs)

/-- The number a byte string writes, most significant byte first. -/
def be : Bytes → ℕ
  | [] => 0
  | b :: bs => b.toNat * 256 ^ bs.length + be bs

lemma be_lt (bs : Bytes) : be bs < 256 ^ bs.length := by
  induction bs with
  | nil => simp [be]
  | cons b bs ih =>
    have hb : b.toNat + 1 ≤ 256 := b.toNat_lt
    calc be (b :: bs) = b.toNat * 256 ^ bs.length + be bs := rfl
      _ < b.toNat * 256 ^ bs.length + 256 ^ bs.length := by omega
      _ = (b.toNat + 1) * 256 ^ bs.length := by ring
      _ ≤ 256 * 256 ^ bs.length := Nat.mul_le_mul_right _ hb
      _ = 256 ^ (b :: bs).length := by rw [List.length_cons, pow_succ]; ring

/-- A larger first byte outweighs everything after it. -/
lemma be_cons_lt {a b : UInt8} {as bs : Bytes} (hlen : as.length = bs.length)
    (h : a.toNat < b.toNat) : be (a :: as) < be (b :: bs) := by
  calc be (a :: as) = a.toNat * 256 ^ as.length + be as := rfl
    _ < a.toNat * 256 ^ as.length + 256 ^ as.length := by have := be_lt as; omega
    _ = (a.toNat + 1) * 256 ^ bs.length := by rw [hlen]; ring
    _ ≤ b.toNat * 256 ^ bs.length := Nat.mul_le_mul_right _ h
    _ ≤ be (b :: bs) := Nat.le_add_right _ _

/-- **Byte order is numeric order** on strings of one length. -/
theorem cmp_eq_compare {a b : Bytes} (hlen : a.length = b.length) :
    cmp a b = compare (be a) (be b) := by
  induction a generalizing b with
  | nil =>
    cases b with
    | nil => rfl
    | cons b bs => simp at hlen
  | cons a as ih =>
    cases b with
    | nil => simp at hlen
    | cons b bs =>
      have hrest : as.length = bs.length := by simpa using hlen
      rcases lt_trichotomy a.toNat b.toNat with h | h | h
      · have hv := be_cons_lt hrest h
        rw [cmp, compare_lt_iff_lt.mpr h, compare_lt_iff_lt.mpr hv]
        rfl
      · have hcmp : compare (be (a :: as)) (be (b :: bs)) = compare (be as) (be bs) := by
          simp only [be, hrest, h]
          rcases lt_trichotomy (be as) (be bs) with h | h | h
          · rw [compare_lt_iff_lt.mpr h, compare_lt_iff_lt.mpr (by omega)]
          · rw [h, compare_eq_iff_eq.mpr rfl, compare_eq_iff_eq.mpr rfl]
          · rw [compare_gt_iff_gt.mpr h, compare_gt_iff_gt.mpr (by omega)]
        rw [hcmp, ← ih hrest, cmp, compare_eq_iff_eq.mpr h]
        rfl
      · have hv := be_cons_lt hrest.symm h
        rw [cmp, compare_gt_iff_gt.mpr h, compare_gt_iff_gt.mpr hv]
        rfl

lemma be_inj {a b : Bytes} (hlen : a.length = b.length) (h : be a = be b) : a = b := by
  induction a generalizing b with
  | nil =>
    cases b with
    | nil => rfl
    | cons b bs => simp at hlen
  | cons a as ih =>
    cases b with
    | nil => simp at hlen
    | cons b bs =>
      have hrest : as.length = bs.length := by simpa using hlen
      rcases lt_trichotomy a.toNat b.toNat with hab | hab | hab
      · exact absurd h (be_cons_lt hrest hab).ne
      · simp only [be, hrest, hab] at h
        rw [ih hrest (by omega), UInt8.toNat_inj.mp hab]
      · exact absurd h (be_cons_lt hrest.symm hab).ne'

end Chesscoin.Lib.ByteString

import Mathlib.Data.List.Basic
import Mathlib.Order.Nat

/-!
Two lists that run together and then part.

Where every name fixes the names before it, as in two chains of linked blocks or two logs, a
name that stands in both lists stands in one place, after the same names. Such lists agree up
to some length and have no name in common after it.
-/

namespace Chesscoin.Lib.Parting

variable {α : Type*} [DecidableEq α] {as bs : List α}

/-- The length up to which two lists agree. -/
def shared : List α → List α → ℕ
  | a :: as, b :: bs => if a = b then shared as bs + 1 else 0
  | _, _ => 0

lemma shared_comm (as bs : List α) : shared as bs = shared bs as := by
  induction as generalizing bs with
  | nil => cases bs <;> rfl
  | cons a as ih =>
    cases bs with
    | nil => rfl
    | cons b bs =>
      simp only [shared, ih bs, eq_comm]

lemma shared_le_left (as bs : List α) : shared as bs ≤ as.length := by
  induction as generalizing bs with
  | nil => exact Nat.le_of_eq (by cases bs <;> rfl)
  | cons a as ih =>
    cases bs with
    | nil => exact Nat.zero_le _
    | cons b bs =>
      have hle := ih bs
      simp only [shared, List.length_cons]
      split <;> omega

lemma shared_le_right (as bs : List α) : shared as bs ≤ bs.length := by
  rw [shared_comm]
  exact shared_le_left bs as

lemma take_shared (as bs : List α) : as.take (shared as bs) = bs.take (shared as bs) := by
  induction as generalizing bs with
  | nil => cases bs <;> rfl
  | cons a as ih =>
    cases bs with
    | nil => rfl
    | cons b bs =>
      simp only [shared]
      split
      · next hab => rw [hab, List.take_succ_cons, List.take_succ_cons, ih bs]
      · rfl

lemma le_shared {n : ℕ} (hn : n ≤ as.length) (h : as.take n = bs.take n) :
    n ≤ shared as bs := by
  induction n generalizing as bs with
  | zero => exact Nat.zero_le _
  | succ n ih =>
    cases as with
    | nil => exact absurd hn (by simp)
    | cons a as =>
      cases bs with
      | nil => simp at h
      | cons b bs =>
        simp only [List.take_succ_cons, List.cons.injEq] at h
        have hle := ih (by simpa using hn) h.2
        simp only [shared, h.1, if_true]
        omega

lemma shared_of_prefix (h : as <+: bs) : shared as bs = as.length := by
  refine le_antisymm (shared_le_left as bs) (le_shared le_rfl ?_)
  obtain ⟨cs, rfl⟩ := h
  rw [List.take_length, List.take_left]

/-- What is shared with a beginning of a list is what is shared with the list, as far as the
beginning goes. -/
lemma shared_prefix_right {cs : List α} (h : bs <+: cs) :
    shared as bs = min (shared as cs) bs.length := by
  obtain ⟨ds, rfl⟩ := h
  have htake := take_shared as (bs ++ ds)
  refine Nat.le_antisymm (le_min (le_shared (shared_le_left as bs) ?_) (shared_le_right as bs))
    (le_shared ((min_le_left _ _).trans (shared_le_left _ _)) ?_)
  · rw [take_shared, List.take_append_of_le_length (shared_le_right as bs)]
  · have hcut := congrArg (List.take (min (shared as (bs ++ ds)) bs.length)) htake
    rw [List.take_take, List.take_take, min_eq_left (min_le_left _ _)] at hcut
    rw [hcut, List.take_append_of_le_length (min_le_right _ _)]

lemma getElem?_shared {i : ℕ} (h : i < shared as bs) : as[i]? = bs[i]? := by
  have htake := congrArg (fun l => l[i]?) (take_shared as bs)
  simp only [List.getElem?_take, h, if_true] at htake
  exact htake

/-- A name in both lists stands in one place of both, after the same names. -/
def Parts (as bs : List α) : Prop :=
  ∀ i j a, as[i]? = some a → bs[j]? = some a → i = j ∧ as.take i = bs.take i

/-- **What is shared comes first**: a name of one list is in the other exactly when it stands
before the point where they part. -/
theorem Parts.mem_iff (h : Parts as bs) {i : ℕ} {a : α} (ha : as[i]? = some a) :
    a ∈ bs ↔ i < shared as bs := by
  constructor
  · intro hmem
    obtain ⟨j, hj⟩ := List.mem_iff_getElem?.mp hmem
    obtain ⟨rfl, htake⟩ := h i j a ha hj
    obtain ⟨hi, -⟩ := List.getElem?_eq_some_iff.mp ha
    refine le_shared (Nat.succ_le_of_lt hi) ?_
    rw [List.take_add_one, List.take_add_one, ha, hj, htake]
  · intro hi
    rw [getElem?_shared hi] at ha
    exact List.mem_of_getElem? ha

end Chesscoin.Lib.Parting

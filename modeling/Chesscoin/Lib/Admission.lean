import Mathlib.Data.Finset.Card
import Mathlib.Data.List.Nodup

/-!
A list that is filled from a sequence of offers.

An offer is taken when it is allowed, not in the list yet, and the list is not full; it is
counted when it is turned down. However long the sequence, the list has no duplicates, only
allowed elements and no more than it may hold, and together with the count it accounts for
every offer.
-/

namespace Chesscoin.Lib.Admission

variable {α : Type*} (ok : α → Bool) (cap : ℕ)

/-- What holds of a list and a count of refusals after so many offers. -/
structure Admitted (offered : ℕ) (s : List α × ℕ) : Prop where
  nodup : s.1.Nodup
  bounded : s.1.length ≤ cap
  allowed : ∀ a ∈ s.1, ok a = true
  accounted : s.1.length + s.2 = offered

lemma Admitted.empty : Admitted ok cap 0 (([] : List α), 0) :=
  ⟨List.nodup_nil, Nat.zero_le _, by simp, rfl⟩

variable [DecidableEq α]

/-- The list and the number of offers turned down, after one more offer. -/
def admitOne (s : List α × ℕ) (a : α) : List α × ℕ :=
  if ok a ∧ a ∉ s.1 ∧ s.1.length < cap then (s.1 ++ [a], s.2) else (s.1, s.2 + 1)

def admitAll (s : List α × ℕ) (offers : List α) : List α × ℕ := offers.foldl (admitOne ok cap) s

variable {ok cap} {offered : ℕ} {s : List α × ℕ}

lemma admitOne_taken {a : α} (h : ok a ∧ a ∉ s.1 ∧ s.1.length < cap) :
    admitOne ok cap s a = (s.1 ++ [a], s.2) := if_pos h

lemma admitOne_refused {a : α} (h : ¬(ok a ∧ a ∉ s.1 ∧ s.1.length < cap)) :
    admitOne ok cap s a = (s.1, s.2 + 1) := if_neg h

lemma admitAll_cons (s : List α × ℕ) (a : α) (offers : List α) :
    admitAll ok cap s (a :: offers) = admitAll ok cap (admitOne ok cap s a) offers := rfl

lemma admitAll_append (s : List α × ℕ) (offers more : List α) :
    admitAll ok cap s (offers ++ more) = admitAll ok cap (admitAll ok cap s offers) more :=
  List.foldl_append

lemma Admitted.admitOne (h : Admitted ok cap offered s) (a : α) :
    Admitted ok cap (offered + 1) (admitOne ok cap s a) := by
  have hcount := h.accounted
  by_cases ha : ok a ∧ a ∉ s.1 ∧ s.1.length < cap
  · rw [admitOne_taken ha]
    obtain ⟨hallowed, hnew, hroom⟩ := ha
    refine ⟨?_, ?_, ?_, ?_⟩
    · rw [List.nodup_append]
      refine ⟨h.nodup, List.nodup_singleton a, fun b hb c hc hbc => hnew ?_⟩
      rwa [← List.mem_singleton.mp hc, ← hbc]
    · rw [List.length_append, List.length_singleton]
      exact hroom
    · simp only [List.mem_append, List.mem_singleton]
      rintro b (hb | rfl)
      · exact h.allowed b hb
      · exact hallowed
    · simp only [List.length_append, List.length_singleton]
      omega
  · rw [admitOne_refused ha]
    exact ⟨h.nodup, h.bounded, h.allowed, by simp only; omega⟩

lemma admitOne_isPrefix (s : List α × ℕ) (a : α) : s.1 <+: (admitOne ok cap s a).1 := by
  unfold admitOne
  split
  · exact List.prefix_append _ _
  · exact List.prefix_rfl

/-- Every offer is taken or counted, in every order of offers. -/
lemma Admitted.admitAll (h : Admitted ok cap offered s) (offers : List α) :
    Admitted ok cap (offered + offers.length) (admitAll ok cap s offers) := by
  induction offers generalizing offered s with
  | nil => exact h
  | cons a offers ih =>
    rw [List.length_cons, Nat.add_comm offers.length, ← Nat.add_assoc]
    exact ih (h.admitOne a)

/-- What has been taken is never lost. -/
lemma admitAll_isPrefix (s : List α × ℕ) (offers : List α) :
    s.1 <+: (admitAll ok cap s offers).1 := by
  induction offers generalizing s with
  | nil => exact List.prefix_rfl
  | cons a offers ih => exact (admitOne_isPrefix s a).trans (ih _)

/-! ### Room for all -/

/-- Only what is offered is taken. -/
lemma mem_admitAll {offers : List α} {a : α} (h : a ∈ (admitAll ok cap s offers).1) :
    a ∈ s.1 ∨ a ∈ offers := by
  induction offers generalizing s with
  | nil => exact .inl h
  | cons b offers ih =>
    rw [admitAll_cons] at h
    rcases ih h with hone | hrest
    · unfold admitOne at hone
      split at hone
      · rcases List.mem_append.mp hone with hold | hnew
        · exact .inl hold
        · exact .inr (by rw [List.mem_singleton.mp hnew]; exact List.mem_cons_self)
      · exact .inl hone
    · exact .inr (List.mem_cons_of_mem b hrest)

lemma admitOne_nodup (h : s.1.Nodup) (a : α) : (admitOne ok cap s a).1.Nodup := by
  unfold admitOne
  split
  · next ha =>
    rw [List.nodup_append]
    refine ⟨h, List.nodup_singleton a, fun b hb c hc hbc => ha.2.1 ?_⟩
    rwa [← List.mem_singleton.mp hc, ← hbc]
  · exact h

lemma admitAll_nodup (h : s.1.Nodup) (offers : List α) : (admitAll ok cap s offers).1.Nodup := by
  induction offers generalizing s with
  | nil => exact h
  | cons a offers ih => exact ih (admitOne_nodup h a)

/-- A list without duplicates that lacks an element of a set has room in it. -/
lemma length_lt_of_lacks {as : List α} (h : as.Nodup) {all : Finset α} (hall : ∀ a ∈ as, a ∈ all)
    {a : α} (ha : a ∈ all) (hnew : a ∉ as) : as.length < all.card := by
  rw [← List.toFinset_card_of_nodup h]
  refine Finset.card_lt_card ⟨fun b hb => hall b (List.mem_toFinset.mp hb), fun hsub => hnew ?_⟩
  exact List.mem_toFinset.mp (hsub ha)

/-- **Where there is room for all that may be offered**, all that is allowed is taken. -/
theorem admitAll_takes {all : Finset α} (hroom : all.card ≤ cap) (hs : ∀ a ∈ s.1, a ∈ all)
    (hnodup : s.1.Nodup) {offers : List α} (hoffers : ∀ a ∈ offers, a ∈ all) {a : α}
    (ha : a ∈ offers) (hok : ok a = true) : a ∈ (admitAll ok cap s offers).1 := by
  induction offers generalizing s with
  | nil => exact absurd ha List.not_mem_nil
  | cons b offers ih =>
    have hb : b ∈ all := hoffers b List.mem_cons_self
    have hone : ∀ c ∈ (admitOne ok cap s b).1, c ∈ all := by
      intro c hc
      rcases mem_admitAll (show c ∈ (admitAll ok cap s [b]).1 from hc) with hold | hnew
      · exact hs c hold
      · rwa [List.mem_singleton.mp hnew]
    rw [admitAll_cons]
    rcases List.mem_cons.mp ha with rfl | ha
    · refine (admitAll_isPrefix _ offers).subset ?_
      by_cases hmem : a ∈ s.1
      · exact (admitOne_isPrefix s a).subset hmem
      · rw [admitOne_taken ⟨hok, hmem, (length_lt_of_lacks hnodup hs hb hmem).trans_le hroom⟩]
        exact List.mem_append_right _ (List.mem_singleton_self a)
    · exact ih hone (admitOne_nodup hnodup b) (fun c hc => hoffers c (by simp [hc])) ha

end Chesscoin.Lib.Admission

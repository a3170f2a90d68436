import Mathlib.Algebra.BigOperators.Group.Finset.Basic
import Mathlib.Algebra.Order.BigOperators.Group.Finset
import Mathlib.Logic.Relation

/-!
Rounds that make progress or arrive.

Parties that hold finite sets of facts pass them on in rounds. As long as each round either
brings some party a fact that was missing, or ends in a state that later rounds do not leave,
that state is reached within as many rounds as facts are missing.

In such a state every party is worth as much as those it asks, and where everyone can be reached
from everyone, all are worth the same.
-/

namespace Chesscoin.Lib.Spread

/-! ### Rounds -/

variable {σ ρ : Type*} (round : σ → ρ → σ) (Inv Goal : σ → Prop) (Fair : ρ → Prop)

/-- What holds at the start and is kept by every fair round holds at the end. -/
lemma rounds_keep (hkeep : ∀ s r, Inv s → Fair r → Inv (round s r)) {s : σ} (h : Inv s)
    {rs : List ρ} (hfair : ∀ r ∈ rs, Fair r) : Inv (rs.foldl round s) := by
  induction rs generalizing s with
  | nil => exact h
  | cons r rs ih =>
    exact ih (hkeep s r h (hfair r (by simp))) fun r' hr' => hfair r' (by simp [hr'])

/-- **Progress or arrival.** With more rounds than the measure allows to make progress, one of
them has arrived. -/
theorem rounds_arrive (measure : σ → ℕ) (hkeep : ∀ s r, Inv s → Fair r → Inv (round s r))
    (hprogress : ∀ s r, Inv s → Fair r → measure (round s r) < measure s ∨ Goal (round s r))
    (hstay : ∀ s r, Inv s → Fair r → Goal s → Goal (round s r)) {s : σ} (h : Inv s)
    {rs : List ρ} (hfair : ∀ r ∈ rs, Fair r) (hlen : measure s < rs.length) :
    Goal (rs.foldl round s) := by
  induction rs generalizing s with
  | nil => exact absurd hlen (Nat.not_lt_zero _)
  | cons r rs ih =>
    have hr : Fair r := hfair r (by simp)
    have hrest : ∀ r' ∈ rs, Fair r' := fun r' hr' => hfair r' (by simp [hr'])
    have hnext := hkeep s r h hr
    rw [List.foldl_cons]
    rcases hprogress s r h hr with hless | hgoal
    · rw [List.length_cons] at hlen
      exact ih hnext hrest (by omega)
    · have hboth : Inv (rs.foldl round (round s r)) ∧ Goal (rs.foldl round (round s r)) := by
        refine rounds_keep round (fun s => Inv s ∧ Goal s) Fair ?_ ⟨hnext, hgoal⟩ hrest
        exact fun s r hs hr => ⟨hkeep s r hs.1 hr, hstay s r hs.1 hr hs.2⟩
      exact hboth.2

/-! ### Facts -/

variable {ι K : Type*} [Fintype ι] [DecidableEq K]

/-- The facts of `all` that the parties lack, counted for each party. -/
def missing (all : Finset K) (known : ι → Finset K) : ℕ := ∑ i, (all \ known i).card

/-- **A party that learns** leaves less missing, when nobody forgets. -/
theorem missing_lt {all : Finset K} {known known' : ι → Finset K}
    (hkeep : ∀ i, known i ⊆ known' i) {i : ι} {k : K} (hall : k ∈ all) (hnew : k ∉ known i)
    (hlearnt : k ∈ known' i) : missing all known' < missing all known := by
  refine Finset.sum_lt_sum (fun j _ => ?_) ⟨i, Finset.mem_univ i, ?_⟩
  · exact Finset.card_le_card (Finset.sdiff_subset_sdiff le_rfl (hkeep j))
  · refine Finset.card_lt_card ⟨Finset.sdiff_subset_sdiff le_rfl (hkeep i), fun hsub => ?_⟩
    have hmem := hsub (Finset.mem_sdiff.mpr ⟨hall, hnew⟩)
    exact (Finset.mem_sdiff.mp hmem).2 hlearnt

/-! ### Worth -/

omit [Fintype ι] in
/-- Where no one is worth less than those it asks, it is worth no less than those they ask. -/
lemma worth_le_of_reach {α : Type*} [Preorder α] {asks : ι → ι → Prop} (worth : ι → α)
    (hasks : ∀ i j, asks i j → worth j ≤ worth i) {i j : ι}
    (h : Relation.ReflTransGen asks i j) : worth j ≤ worth i := by
  induction h with
  | refl => exact le_rfl
  | tail _ hstep ih => exact (hasks _ _ hstep).trans ih

end Chesscoin.Lib.Spread

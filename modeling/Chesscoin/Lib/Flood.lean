import Mathlib.Data.Set.Basic
import Mathlib.Logic.Relation

/-!
News that is passed on.

Whoever hears the news for the first time owes it to those it can call; the debt is paid by calling
them all, and whoever has been called hears it sooner or later. Whatever else goes on meanwhile, and
in whatever order this happens: when nobody owes it any more and no call is on its way, it has gone
wherever calls lead.
-/

namespace Chesscoin.Lib.Flood

variable {ι : Type*}

/-- Who knows the news, who has still to pass it on, and whom a call is on its way to. -/
structure News (ι : Type*) where
  knows : Set ι
  owes : Set ι
  called : Set ι

variable {edge : ι → ι → Prop} {s s' : News ι}

/-- What may happen to the news along edges. -/
structure Spreads (edge : ι → ι → Prop) (s s' : News ι) : Prop where
  keeps : ∀ i ∈ s.knows, i ∈ s'.knows
  learns : ∀ i ∈ s'.knows, i ∈ s.knows ∨ i ∈ s'.owes
  pays : ∀ i ∈ s.owes, i ∈ s'.owes ∨ ∀ j, edge i j → j ∈ s'.called ∨ j ∈ s'.knows
  hears : ∀ j ∈ s.called, j ∈ s'.called ∨ j ∈ s'.knows

/-- Whoever knows the news owes it, or has passed it on. -/
def Carried (edge : ι → ι → Prop) (s : News ι) : Prop :=
  ∀ i ∈ s.knows, i ∈ s.owes ∨ ∀ j, edge i j → j ∈ s.called ∨ j ∈ s.knows

lemma Carried.step (h : Carried edge s) (hstep : Spreads edge s s') : Carried edge s' := by
  intro i hi
  rcases hstep.learns i hi with hold | howes
  · rcases h i hold with howes | hpassed
    · exact hstep.pays i howes
    · refine .inr fun j hj => ?_
      rcases hpassed j hj with hcalled | hknows
      · exact hstep.hears j hcalled
      · exact .inr (hstep.keeps j hknows)
  · exact .inl howes

/-- **News that is nowhere under way** has gone wherever it could. -/
theorem Carried.everywhere (h : Carried edge s) (hpaid : s.owes = ∅) (hheard : s.called = ∅)
    {i j : ι} (hi : i ∈ s.knows) (hreach : Relation.ReflTransGen edge i j) : j ∈ s.knows := by
  induction hreach with
  | refl => exact hi
  | tail _ hedge ih =>
    rcases h _ ih with howes | hpassed
    · rw [hpaid] at howes
      exact absurd howes (Set.notMem_empty _)
    · rcases hpassed _ hedge with hcalled | hknows
      · rw [hheard] at hcalled
        exact absurd hcalled (Set.notMem_empty _)
      · exact hknows

end Chesscoin.Lib.Flood

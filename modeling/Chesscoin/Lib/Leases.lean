import Mathlib.Logic.Function.Basic
import Mathlib.Logic.Relation

/-!
Leases on places, by a mark that is left at a place.

A holder takes a place by leaving its mark there, which fails when there is a mark already, and
gives it back by removing the mark, which may fail as well. A holder can also vanish, and leaves
its mark behind; someone who has looked and found no holder may remove it.

No place has two holders, and a mark nobody stands behind has been left behind by a holder.
-/

namespace Chesscoin.Lib.Leases

structure Ledger (Holder Place : Type) where
  marked : Place → Bool
  held : Holder → Option Place

variable {Holder Place : Type} [DecidableEq Holder] [DecidableEq Place]

inductive Step : Ledger Holder Place → Ledger Holder Place → Prop
  | take {s : Ledger Holder Place} (h : Holder) (p : Place) : s.held h = none →
      s.marked p = false →
      Step s ⟨Function.update s.marked p true, Function.update s.held h (some p)⟩
  | giveBack {s : Ledger Holder Place} (h : Holder) (p : Place) : s.held h = some p →
      Step s ⟨Function.update s.marked p false, Function.update s.held h none⟩
  | vanish {s : Ledger Holder Place} (h : Holder) (p : Place) : s.held h = some p →
      Step s ⟨s.marked, Function.update s.held h none⟩
  | clear {s : Ledger Holder Place} (p : Place) : (∀ h, s.held h ≠ some p) →
      Step s ⟨Function.update s.marked p false, s.held⟩

/-- A holder stands behind its mark, and is the only one. -/
structure Exclusive (marked : Place → Bool) (held : Holder → Option Place) : Prop where
  marked : ∀ h p, held h = some p → marked p = true
  alone : ∀ h h' p, held h = some p → held h' = some p → h = h'

/-- A mark that nobody stands behind. -/
def Stale (s : Ledger Holder Place) (p : Place) : Prop :=
  s.marked p = true ∧ ∀ h, s.held h ≠ some p

section

variable {held : Holder → Option Place} {marked : Place → Bool} {h h' : Holder} {p q : Place}

omit [DecidableEq Place] in
lemma of_update {β : Type} {f : Holder → Option β} {new : Option β} {b : β}
    (hb : Function.update f h new h' = some b) :
    (h' = h ∧ new = some b) ∨ (h' ≠ h ∧ f h' = some b) := by
  by_cases heq : h' = h
  · subst heq
    rw [Function.update_self] at hb
    exact .inl ⟨rfl, hb⟩
  · rw [Function.update_of_ne heq] at hb
    exact .inr ⟨heq, hb⟩

omit [DecidableEq Place] in
lemma held_of_drop (hp : Function.update held h none h' = some p) : h' ≠ h ∧ held h' = some p :=
  (of_update hp).resolve_left fun hnew => Option.some_ne_none p hnew.2.symm

omit [DecidableEq Place] in
lemma held_of_take (hp : Function.update held h (some q) h' = some p) :
    (h' = h ∧ p = q) ∨ held h' = some p :=
  (of_update hp).imp (fun hnew => ⟨hnew.1, (Option.some.inj hnew.2).symm⟩) And.right

omit [DecidableEq Holder] in
lemma marked_of_unmark (hp : Function.update marked q false p = true) :
    p ≠ q ∧ marked p = true := by
  by_cases heq : p = q
  · subst heq
    rw [Function.update_self] at hp
    cases hp
  · rw [Function.update_of_ne heq] at hp
    exact ⟨heq, hp⟩

omit [DecidableEq Holder] [DecidableEq Place] in
lemma Exclusive.idle (hidle : ∀ h, held h = none) : Exclusive marked held := by
  constructor
  · intro h p hheld
    rw [hidle h] at hheld
    cases hheld
  · intro h _ p hheld
    rw [hidle h] at hheld
    cases hheld

omit [DecidableEq Place] in
/-- Without one of the holders. -/
lemma Exclusive.drop (hs : Exclusive marked held) (h : Holder) :
    Exclusive marked (Function.update held h none) :=
  ⟨fun h' p hheld => hs.marked h' p (held_of_drop hheld).2,
    fun h₁ h₂ p h₁p h₂p => hs.alone h₁ h₂ p (held_of_drop h₁p).2 (held_of_drop h₂p).2⟩

omit [DecidableEq Holder] in
/-- A mark nobody stands behind is removed. -/
lemma Exclusive.unmark (hs : Exclusive marked held) (hnobody : ∀ h, held h ≠ some p) :
    Exclusive (Function.update marked p false) held := by
  refine ⟨fun h q hheld => ?_, hs.alone⟩
  have hne : q ≠ p := by
    rintro rfl
    exact hnobody h hheld
  rw [Function.update_of_ne hne]
  exact hs.marked h q hheld

lemma Exclusive.take (hs : Exclusive marked held) (hmark : marked p = false) (h : Holder) :
    Exclusive (Function.update marked p true) (Function.update held h (some p)) := by
  have hnobody : ∀ h', held h' ≠ some p := by
    intro h' hheld
    rw [hs.marked h' p hheld] at hmark
    cases hmark
  constructor
  · intro h' q hheld
    rcases held_of_take hheld with ⟨-, rfl⟩ | hheld'
    · exact Function.update_self _ _ _
    · have hne : q ≠ p := by
        rintro rfl
        exact hnobody h' hheld'
      rw [Function.update_of_ne hne]
      exact hs.marked h' q hheld'
  · intro h₁ h₂ q h₁q h₂q
    rcases held_of_take h₁q with ⟨rfl, rfl⟩ | hheld₁
    · rcases held_of_take h₂q with ⟨rfl, -⟩ | hheld₂
      · rfl
      · exact absurd hheld₂ (hnobody h₂)
    · rcases held_of_take h₂q with ⟨rfl, rfl⟩ | hheld₂
      · exact absurd hheld₁ (hnobody h₁)
      · exact hs.alone h₁ h₂ q hheld₁ hheld₂

end

variable {s s' : Ledger Holder Place}

/-- **No step makes a second holder.** -/
theorem Exclusive.step (hs : Exclusive s.marked s.held) (hstep : Step s s') :
    Exclusive s'.marked s'.held := by
  cases hstep with
  | take h p _ hmark => exact hs.take hmark h
  | giveBack h p hheld =>
    refine (hs.drop h).unmark fun h' hheld' => ?_
    obtain ⟨hne, hheld'⟩ := held_of_drop hheld'
    exact hne (hs.alone h' h p hheld' hheld)
  | vanish h p _ => exact hs.drop h
  | clear p hnobody => exact hs.unmark hnobody

/-- **A mark becomes stale only when its holder vanishes.** -/
theorem Stale.of_step {p : Place} (hstale : Stale s' p) (hstep : Step s s') :
    Stale s p ∨ ∃ h, s.held h = some p ∧ s' = ⟨s.marked, Function.update s.held h none⟩ := by
  obtain ⟨hmark, hnobody⟩ := hstale
  by_cases hold : ∃ h, s.held h = some p
  · obtain ⟨h, hheld⟩ := hold
    right
    cases hstep with
    | take h' q hfree _ =>
      have hne : h ≠ h' := by
        rintro rfl
        rw [hfree] at hheld
        cases hheld
      refine absurd ?_ (hnobody h)
      exact (Function.update_of_ne hne _ _).trans hheld
    | giveBack h' q hheld' =>
      by_cases heq : h = h'
      · subst heq
        rw [hheld, Option.some.injEq] at hheld'
        exact absurd hheld' (marked_of_unmark hmark).1
      · exact absurd ((Function.update_of_ne heq _ _).trans hheld) (hnobody h)
    | vanish h' q hheld' =>
      by_cases heq : h = h'
      · subst heq
        exact ⟨h, hheld, rfl⟩
      · exact absurd ((Function.update_of_ne heq _ _).trans hheld) (hnobody h)
    | clear q _ => exact absurd hheld (hnobody h)
  · left
    refine ⟨?_, fun h hheld => hold ⟨h, hheld⟩⟩
    cases hstep with
    | take h q _ _ =>
      have hne : p ≠ q := by
        rintro rfl
        exact hnobody h (Function.update_self _ _ _)
      exact (Function.update_of_ne hne _ _).symm.trans hmark
    | giveBack h q _ => exact (marked_of_unmark hmark).2
    | vanish h q _ => exact hmark
    | clear q _ => exact (marked_of_unmark hmark).2

end Chesscoin.Lib.Leases

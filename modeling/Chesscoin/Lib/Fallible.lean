import Mathlib.Data.List.Basic

/-!
Computations that may fail, taken apart, and runs of steps each of which may fail.

A run that succeeds succeeds at every step, so what every successful step preserves the run
preserves. A reading of the state that each step replaces by what the step gives for it, or
leaves alone, is after a run the last value given.
-/

namespace Chesscoin.Lib.Fallible

variable {ε α β σ : Type}

lemma bind_ok {x : Except ε α} {f : α → Except ε β} {b : β} (h : x >>= f = .ok b) :
    ∃ a, x = .ok a ∧ f a = .ok b := by
  cases x with
  | error e => cases h
  | ok a => exact ⟨a, rfl, h⟩

lemma map_ok {x : Except ε α} {f : α → β} {b : β} (h : x.map f = .ok b) :
    ∃ a, x = .ok a ∧ f a = b := by
  cases x with
  | error e => cases h
  | ok a => exact ⟨a, rfl, Except.ok.inj h⟩

lemma ok_of_toOption_map {x : Except ε α} {f : α → β} {b : β} (h : x.toOption.map f = some b) :
    ∃ a, x = .ok a ∧ f a = b := by
  cases x with
  | error e => cases h
  | ok a => exact ⟨a, rfl, Option.some.inj h⟩

/-! ### Runs -/

def run (step : σ → α → Except ε σ) (s : σ) (as : List α) : Except ε σ := as.foldlM step s

variable {step : σ → α → Except ε σ} {s s' : σ} {as : List α}

@[simp] lemma run_nil : run step s [] = .ok s := rfl

lemma run_cons (a : α) : run step s (a :: as) = step s a >>= fun m => run step m as := rfl

/-- What every step preserves a run preserves. -/
theorem run_preserves {P : σ → Prop} (hstep : ∀ s a s', step s a = .ok s' → P s → P s')
    (h : run step s as = .ok s') (hs : P s) : P s' := by
  induction as generalizing s with
  | nil => exact Except.ok.inj h ▸ hs
  | cons a as ih =>
    obtain ⟨m, hm, hrest⟩ := bind_ok h
    exact ih hrest (hstep s a m hm hs)

/-- Every step of a run has been taken from some state. -/
lemma step_of_mem_run (h : run step s as = .ok s') {a : α} (ha : a ∈ as) :
    ∃ m m', step m a = .ok m' := by
  induction as generalizing s with
  | nil => cases ha
  | cons b as ih =>
    obtain ⟨m, hm, hrest⟩ := bind_ok h
    rcases List.mem_cons.mp ha with rfl | ha
    · exact ⟨s, m, hm⟩
    · exact ih hrest ha

/-! ### The last value given -/

/-- The last value that a sequence gives. -/
def lastGiven (given : α → Option β) (as : List α) : Option β := (as.filterMap given).getLast?

lemma lastGiven_append (given : α → Option β) (as bs : List α) :
    lastGiven given (as ++ bs) = (lastGiven given bs).or (lastGiven given as) := by
  rw [lastGiven, List.filterMap_append, List.getLast?_append]
  rfl

lemma lastGiven_cons (given : α → Option β) (a : α) (as : List α) :
    lastGiven given (a :: as) = (lastGiven given as).or (given a) := by
  rw [← List.singleton_append, lastGiven_append]
  cases h : given a with
  | none => simp [lastGiven, h]
  | some b => simp [lastGiven, h]

lemma lastGiven_map (given : α → Option β) (f : β → σ) (as : List α) :
    lastGiven (fun a => (given a).map f) as = (lastGiven given as).map f := by
  rw [lastGiven, lastGiven, ← List.getLast?_map, List.map_filterMap]

lemma exists_of_lastGiven {given : α → Option β} {b : β} (h : lastGiven given as = some b) :
    ∃ a ∈ as, given a = some b :=
  List.mem_filterMap.mp (List.mem_of_getLast? h)

/-- **After a run a reading is the last value given for it.** -/
theorem read_of_run {read : σ → β} {given : α → Option β}
    (hstep : ∀ s a s', step s a = .ok s' → read s' = (given a).getD (read s))
    (h : run step s as = .ok s') : read s' = (lastGiven given as).getD (read s) := by
  induction as generalizing s with
  | nil => exact congrArg read (Except.ok.inj h).symm
  | cons a as ih =>
    obtain ⟨m, hm, hrest⟩ := bind_ok h
    rw [ih hrest, hstep s a m hm, lastGiven_cons]
    cases lastGiven given as with
    | none => rfl
    | some b => rfl

end Chesscoin.Lib.Fallible

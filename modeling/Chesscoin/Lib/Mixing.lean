import Mathlib.Data.List.Basic
import Mathlib.Logic.Function.Basic

/-!
Mixing without loss: invertible operations on words, and states that take in one letter
after another.

A mixer that is injective in its state never forgets a difference. If besides every letter
goes into a part of the state that the next `w - 1` letters leave alone, then two strings of
one length that differ only within `w` consecutive places lead to different states: the first
difference stays in its part until the window is over, and is never lost after that.
-/

namespace Chesscoin.Lib.Mixing

/-! ### Words -/

section Words

variable {w : ℕ}

lemma eq_zero_of_eq_shiftRight {d : BitVec w} {k : ℕ} (hk : 0 < k) (h : d = d >>> k) :
    d = 0#w := by
  apply BitVec.eq_of_toNat_eq
  have hd := congrArg BitVec.toNat h
  rw [BitVec.toNat_ushiftRight, Nat.shiftRight_eq_div_pow] at hd
  by_contra hne
  have hpos : 0 < d.toNat := Nat.pos_of_ne_zero hne
  have := Nat.div_lt_self hpos (Nat.one_lt_two_pow (n := k) (by omega))
  omega

/-- A word mixed with its own high bits can be told again. -/
lemma xorShift_injective {k : ℕ} (hk : 0 < k) :
    Function.Injective fun x : BitVec w => x ^^^ (x >>> k) := by
  intro x y h
  have h : x ^^^ x >>> k = y ^^^ y >>> k := h
  have hself : x ^^^ y = (x ^^^ y) >>> k := by
    calc x ^^^ y = (x ^^^ x >>> k) ^^^ (x >>> k ^^^ y) := by
          rw [BitVec.xor_assoc, ← BitVec.xor_assoc (x >>> k), BitVec.xor_self, BitVec.zero_xor]
      _ = (y ^^^ y >>> k) ^^^ (x >>> k ^^^ y) := by rw [h]
      _ = x >>> k ^^^ y >>> k := by
          rw [BitVec.xor_comm (y ^^^ y >>> k), BitVec.xor_assoc, ← BitVec.xor_assoc y,
            BitVec.xor_self, BitVec.zero_xor]
      _ = (x ^^^ y) >>> k := (BitVec.ushiftRight_xor_distrib x y k).symm
  have hzero := eq_zero_of_eq_shiftRight hk hself
  calc x = (x ^^^ y) ^^^ y := by rw [BitVec.xor_assoc, BitVec.xor_self, BitVec.xor_zero]
    _ = y := by rw [hzero, BitVec.zero_xor]

/-- A word turned around can be turned back. -/
lemma rotate_injective {n : ℕ} (hn : n ≤ w) :
    Function.Injective fun x : BitVec w => x <<< n ||| x >>> (w - n) := by
  intro x y h
  have hbit : ∀ i, (x <<< n ||| x >>> (w - n)).getLsbD i =
      (y <<< n ||| y >>> (w - n)).getLsbD i := fun i => congrArg (·.getLsbD i) h
  simp only [BitVec.getLsbD_or, BitVec.getLsbD_shiftLeft, BitVec.getLsbD_ushiftRight] at hbit
  apply BitVec.eq_of_getLsbD_eq
  intro j hj
  rcases Nat.lt_or_ge j (w - n) with hlow | hhigh
  · -- a low bit has moved up by `n`
    have hx : x.getLsbD (w - n + (j + n)) = false := BitVec.getLsbD_of_ge _ _ (by omega)
    have hy : y.getLsbD (w - n + (j + n)) = false := BitVec.getLsbD_of_ge _ _ (by omega)
    have hj' := hbit (j + n)
    rw [hx, hy] at hj'
    simpa [show j + n < w by omega, show ¬ j + n < n by omega] using hj'
  · -- a high bit has come in at the bottom
    have hj' := hbit (j - (w - n))
    simpa [show j - (w - n) < n by omega, show w - n + (j - (w - n)) = j by omega] using hj'

end Words

/-! ### Strings that differ in a window -/

section Windows

variable {α : Type*}

/-- Two different lists of one length, the same outside of `w` consecutive places. -/
def DifferWithin (w : ℕ) (s t : List α) : Prop :=
  s.length = t.length ∧ s ≠ t ∧ ∃ p, ∀ i, s[i]? ≠ t[i]? → p ≤ i ∧ i < p + w

/-- They are one beginning, two middle parts and one end. -/
lemma DifferWithin.parts {w : ℕ} {s t : List α} (h : DifferWithin w s t) :
    ∃ u m m' v, s = u ++ (m ++ v) ∧ t = u ++ (m' ++ v) ∧ m.length = m'.length ∧
      m.length ≤ w ∧ m ≠ m' := by
  obtain ⟨hlen, hne, p, hp⟩ := h
  have htake : s.take p = t.take p := by
    apply List.ext_getElem?
    intro i
    rw [List.getElem?_take, List.getElem?_take]
    split
    · next hi =>
      by_contra hdiff
      have := (hp i hdiff).1
      omega
    · rfl
  have hdrop : s.drop (p + w) = t.drop (p + w) := by
    apply List.ext_getElem?
    intro i
    rw [List.getElem?_drop, List.getElem?_drop]
    by_contra hdiff
    have := (hp _ hdiff).2
    omega
  have hsplit : ∀ l : List α, l = l.take p ++ ((l.drop p).take w ++ l.drop (p + w)) := by
    intro l
    rw [← List.drop_drop, List.take_append_drop, List.take_append_drop]
  refine ⟨s.take p, (s.drop p).take w, (t.drop p).take w, s.drop (p + w), hsplit s, ?_, ?_, ?_, ?_⟩
  · rw [htake, hdrop]
    exact hsplit t
  · simp only [List.length_take, List.length_drop, hlen]
  · rw [List.length_take]
    exact Nat.min_le_left _ _
  · intro hmid
    apply hne
    rw [hsplit s, hsplit t, htake, hmid, hdrop]

lemma differWithin_parts {w : ℕ} {m m' : List α} (hlen : m.length = m'.length)
    (hw : m.length ≤ w) (hne : m ≠ m') (u v : List α) :
    DifferWithin w (u ++ (m ++ v)) (u ++ (m' ++ v)) := by
  refine ⟨by simp [hlen], fun h => hne ?_, u.length, fun i hi => ?_⟩
  · exact List.append_cancel_right (List.append_cancel_left h)
  · by_contra hout
    apply hi
    rcases Nat.lt_or_ge i u.length with hu | hu
    · rw [List.getElem?_append_left hu, List.getElem?_append_left hu]
    · rw [List.getElem?_append_right hu, List.getElem?_append_right hu,
        List.getElem?_append_right (by omega), List.getElem?_append_right (by omega), hlen]

/-! ### Mixers -/

variable {S L : Type*} (step : S → ℕ → α → S)

/-- The state after the letters of a list, the first at place `i`. -/
def run : S → ℕ → List α → S
  | s, _, [] => s
  | s, i, a :: as => run (step s i a) (i + 1) as

lemma run_append (s : S) (i : ℕ) (as bs : List α) :
    run step s i (as ++ bs) = run step (run step s i as) (i + as.length) bs := by
  induction as generalizing s i with
  | nil => rfl
  | cons a as ih =>
    rw [List.cons_append, run, run, ih, List.length_cons, Nat.add_right_comm, Nat.add_assoc]

/-- Every step is injective in the state; a letter at place `i` goes into the part `part · i`,
which the letters at the next `w - 1` places leave as it is. -/
structure Windowed (w : ℕ) (part : S → ℕ → L) : Prop where
  step_injective : ∀ i a, Function.Injective fun s => step s i a
  letter_injective : ∀ s i, Function.Injective fun a => part (step s i a) i
  part_kept : ∀ s i j a, i < j → j < i + w → part (step s j a) i = part s i

variable {step} {w : ℕ} {part : S → ℕ → L}

lemma run_injective (hstep : ∀ i a, Function.Injective fun s => step s i a) (i : ℕ)
    (as : List α) : Function.Injective fun s => run step s i as := by
  induction as generalizing i with
  | nil => exact fun _ _ h => h
  | cons a as ih => exact fun _ _ h => hstep i a (ih (i + 1) h)

lemma Windowed.part_run (h : Windowed step w part) {i j : ℕ} {as : List α} (s : S) (hij : i < j)
    (hj : j + as.length ≤ i + w) : part (run step s j as) i = part s i := by
  induction as generalizing s j with
  | nil => rfl
  | cons a as ih =>
    rw [List.length_cons] at hj
    rw [run, ih _ (by omega) (by omega)]
    exact h.part_kept s i j a hij (by omega)

/-- Different strings no longer than the window lead from one state to different states. -/
lemma Windowed.run_ne (h : Windowed step w part) {m m' : List α} (hlen : m.length = m'.length)
    (hw : m.length ≤ w) (hne : m ≠ m') (s : S) (i : ℕ) : run step s i m ≠ run step s i m' := by
  induction m generalizing m' s i with
  | nil =>
    cases m' with
    | nil => exact absurd rfl hne
    | cons b bs => simp at hlen
  | cons a as ih =>
    cases m' with
    | nil => simp at hlen
    | cons b bs =>
      have hrest : as.length = bs.length := by simpa using hlen
      rw [List.length_cons] at hw
      by_cases hab : a = b
      · subst hab
        exact ih hrest (by omega) (fun heq => hne (by rw [heq])) (step s i a) (i + 1)
      · intro heq
        have hpart : part (run step (step s i a) (i + 1) as) i =
            part (run step (step s i b) (i + 1) bs) i := congrArg (part · i) heq
        rw [h.part_run _ (by omega) (by omega), h.part_run _ (by omega) (by omega)] at hpart
        exact hab (h.letter_injective s i hpart)

/-- **A windowed mixer tells apart** strings that differ within its window. -/
theorem Windowed.run_differ (h : Windowed step w part) {s t : List α} (hst : DifferWithin w s t)
    (s₀ : S) (i : ℕ) : run step s₀ i s ≠ run step s₀ i t := by
  obtain ⟨u, m, m', v, rfl, rfl, hlen, hw, hne⟩ := hst.parts
  rw [run_append, run_append, run_append, run_append, hlen]
  intro heq
  exact h.run_ne hlen hw hne _ _ (run_injective h.step_injective _ v heq)

end Windows

end Chesscoin.Lib.Mixing

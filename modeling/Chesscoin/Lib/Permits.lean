import Mathlib.Data.Multiset.AddSub
import Mathlib.Logic.Relation

/-!
Permits that are counted in a machine word.

Any number of threads take permits and give them back. A thread that wants one reads the counter,
goes away when the limit is reached, and otherwise tries to replace the value it has read by the
next one; it reads again when the counter is another by then. A thread that gives its permit back
subtracts one, whatever the counter is. Threads do these things in any order.

The counter is the number of permits that are out, so it stays within the limit, and the
subtraction never wraps around.
-/

namespace Chesscoin.Lib.Permits

/-- The counter, the values that threads have read and not yet tried to replace, and the number
of permits that are out. -/
structure Tally where
  counter : ℕ
  loaded : Multiset ℕ
  alive : ℕ

/-- The counter as it is before the first thread comes. -/
def fresh : Tally := ⟨0, 0, 0⟩

/-- What a thread can do, with a counter that wraps around at `size`. -/
inductive Step (size limit : ℕ) : Tally → Tally → Prop
  | load {s : Tally} : s.counter < limit →
      Step size limit s { s with loaded := s.counter ::ₘ s.loaded }
  | exchange {s : Tally} {seen : ℕ} : seen ∈ s.loaded → s.counter = seen →
      Step size limit s ⟨(seen + 1) % size, s.loaded.erase seen, s.alive + 1⟩
  | retry {s : Tally} {seen : ℕ} : seen ∈ s.loaded → s.counter ≠ seen →
      Step size limit s { s with loaded := s.loaded.erase seen }
  | release {s : Tally} : 0 < s.alive →
      Step size limit s
        { s with counter := (s.counter + (size - 1)) % size, alive := s.alive - 1 }

structure Sound (limit : ℕ) (s : Tally) : Prop where
  counted : s.counter = s.alive
  bounded : s.alive ≤ limit
  room : ∀ seen ∈ s.loaded, seen < limit

variable {size limit : ℕ} {s s' : Tally}

lemma Sound.fresh (limit : ℕ) : Sound limit fresh :=
  ⟨rfl, Nat.zero_le _, fun _ h => absurd h (Multiset.notMem_zero _)⟩

/-- **A step keeps the count.** A value that has been read is a value with room above it, so
replacing it stays within the limit, however old it is. -/
theorem Sound.step (hsize : limit < size) (h : Sound limit s) (hstep : Step size limit s s') :
    Sound limit s' := by
  have hcount := h.counted
  have hbound := h.bounded
  cases hstep with
  | load hlt =>
    refine ⟨hcount, hbound, fun seen hseen => ?_⟩
    rcases Multiset.mem_cons.mp hseen with rfl | hseen
    · exact hlt
    · exact h.room seen hseen
  | exchange hmem heq =>
    have hlt := h.room _ hmem
    refine ⟨?_, ?_, fun seen hseen => h.room seen (Multiset.mem_of_mem_erase hseen)⟩
    · show (_ + 1) % size = s.alive + 1
      rw [Nat.mod_eq_of_lt (by omega)]
      omega
    · show s.alive + 1 ≤ limit
      omega
  | retry hmem hne =>
    exact ⟨hcount, hbound, fun seen hseen => h.room seen (Multiset.mem_of_mem_erase hseen)⟩
  | release hpos =>
    refine ⟨?_, ?_, h.room⟩
    · show (s.counter + (size - 1)) % size = s.alive - 1
      rw [show s.counter + (size - 1) = s.alive - 1 + size by omega, Nat.add_mod_right,
        Nat.mod_eq_of_lt (by omega)]
    · show s.alive - 1 ≤ limit
      omega

end Chesscoin.Lib.Permits

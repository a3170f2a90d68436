import Mathlib.Data.Finset.Card
import Mathlib.Data.Finset.Image
import Mathlib.Data.Nat.Periodic

/-!
Collecting different values of a function along a counter.

The search takes each value the first time it meets it and stops when it has as many as it was
asked for. After so many places it has the values of those places, each once; so it stops just
when there are enough, and along a counter that comes round it stops within one round or never.
-/

namespace Chesscoin.Lib.Collect

variable {β : Type*} [DecidableEq β] (g : ℕ → β)

/-- The values of the first `k` places, each once, in the order they are met. -/
def gather : ℕ → List β
  | 0 => []
  | k + 1 => if g k ∈ gather k then gather k else gather k ++ [g k]

/-- The search for `n` values from place `i` on; `none` when it runs out of fuel. -/
def collect (n : ℕ) : ℕ → ℕ → List β → Option (List β)
  | 0, _, found => if found.length < n then none else some found
  | fuel + 1, i, found =>
    if found.length < n then
      collect n fuel (i + 1) (if g i ∈ found then found else found ++ [g i])
    else some found

/-! ### What has been gathered -/

lemma gather_nodup (k : ℕ) : (gather g k).Nodup := by
  induction k with
  | zero => exact List.nodup_nil
  | succ k ih =>
    rw [gather]
    split
    · exact ih
    · next hnew => exact List.nodup_append.mpr ⟨ih, List.nodup_singleton _, by
        rintro a ha b hb rfl
        exact hnew (List.mem_singleton.mp hb ▸ ha)⟩

lemma gather_toFinset (k : ℕ) : (gather g k).toFinset = (Finset.range k).image g := by
  induction k with
  | zero => rfl
  | succ k ih =>
    rw [gather, Finset.range_add_one, Finset.image_insert, ← ih]
    split
    · next hmem => rw [Finset.insert_eq_of_mem (List.mem_toFinset.mpr hmem)]
    · ext x
      simp

lemma gather_length (k : ℕ) : (gather g k).length = ((Finset.range k).image g).card := by
  rw [← gather_toFinset, List.toFinset_card_of_nodup (gather_nodup g k)]

lemma gather_length_mono {j k : ℕ} (h : j ≤ k) : (gather g j).length ≤ (gather g k).length := by
  rw [gather_length, gather_length]
  exact Finset.card_le_card (Finset.image_subset_image (Finset.range_subset_range.mpr h))

lemma mem_gather {k : ℕ} {x : β} (h : x ∈ gather g k) : ∃ i, g i = x := by
  rw [← List.mem_toFinset, gather_toFinset] at h
  obtain ⟨i, -, hi⟩ := Finset.mem_image.mp h
  exact ⟨i, hi⟩

/-! ### What the search finds -/

variable {n : ℕ}

/-- A search that stops has gathered `n` values. -/
lemma collect_some {fuel i : ℕ} {found : List β} (hle : (gather g i).length ≤ n)
    (h : collect g n fuel i (gather g i) = some found) :
    ∃ k, found = gather g k ∧ found.length = n := by
  induction fuel generalizing i with
  | zero =>
    rw [collect] at h
    split at h
    · cases h
    · cases h
      exact ⟨i, rfl, by omega⟩
  | succ fuel ih =>
    rw [collect] at h
    split at h
    · refine ih (i := i + 1) ?_ h
      rw [gather]
      split
      · exact hle
      · rw [List.length_append, List.length_singleton]
        omega
    · cases h
      exact ⟨i, rfl, by omega⟩

/-- **The search stops** when there are enough values in its reach. -/
theorem collect_isSome_iff (fuel i : ℕ) :
    (collect g n fuel i (gather g i)).isSome ↔ n ≤ (gather g (i + fuel)).length := by
  induction fuel generalizing i with
  | zero =>
    rw [collect, Nat.add_zero]
    split <;> simp <;> omega
  | succ fuel ih =>
    have hnext := ih (i + 1)
    rw [Nat.add_right_comm] at hnext
    rw [collect]
    split
    · exact hnext
    · next hlt =>
      have hmono := gather_length_mono g (Nat.le_add_right i (fuel + 1))
      simp only [Option.isSome_some, true_iff]
      omega

/-- More fuel does not change what is found. -/
lemma collect_mono {fuel fuel' i : ℕ} {found acc : List β} (hle : fuel ≤ fuel')
    (h : collect g n fuel i acc = some found) : collect g n fuel' i acc = some found := by
  induction fuel generalizing fuel' i acc with
  | zero =>
    rw [collect] at h
    split at h
    · cases h
    · next hdone =>
      cases fuel' with
      | zero => rw [collect, if_neg hdone, h]
      | succ fuel' => rw [collect, if_neg hdone, h]
  | succ fuel ih =>
    obtain ⟨fuel', rfl⟩ : ∃ f, fuel' = f + 1 := ⟨fuel' - 1, by omega⟩
    rw [collect] at h ⊢
    split at h
    · next hlt =>
      rw [if_pos hlt]
      exact ih (by omega) h
    · next hdone => rw [if_neg hdone, h]

/-- **Along a counter that comes round** a search stops at all just when one round has enough
values, and then within one round. -/
theorem collect_periodic {p : ℕ} (hp : 0 < p) (hg : Function.Periodic g p) :
    (∃ fuel found, collect g n fuel 0 [] = some found) ↔ n ≤ ((Finset.range p).image g).card := by
  have hround : ∀ k, (gather g k).length ≤ ((Finset.range p).image g).card := by
    intro k
    rw [gather_length]
    refine Finset.card_le_card fun x hx => ?_
    obtain ⟨i, -, rfl⟩ := Finset.mem_image.mp hx
    exact Finset.mem_image.mpr ⟨i % p, Finset.mem_range.mpr (Nat.mod_lt i hp), hg.map_mod_nat i⟩
  constructor
  · rintro ⟨fuel, found, h⟩
    have hsome := (collect_isSome_iff g fuel 0).mp (Option.isSome_iff_exists.mpr ⟨found, h⟩)
    exact hsome.trans (hround _)
  · intro h
    rw [← gather_length, ← Nat.zero_add p] at h
    exact ⟨p, Option.isSome_iff_exists.mp ((collect_isSome_iff g p 0).mpr h)⟩

/-- What any search finds, a search of one round finds. -/
lemma collect_round {p fuel : ℕ} {found : List β} (hp : 0 < p) (hg : Function.Periodic g p)
    (h : collect g n fuel 0 [] = some found) : collect g n p 0 [] = some found := by
  have henough := (collect_periodic g hp hg).mp ⟨fuel, found, h⟩
  rw [← gather_length, ← Nat.zero_add p] at henough
  obtain ⟨found', h'⟩ := Option.isSome_iff_exists.mp ((collect_isSome_iff g p 0).mpr henough)
  rcases Nat.le_total fuel p with hle | hle
  · exact collect_mono g hle h
  · have hsame := collect_mono g hle h'
    rw [gather, h] at hsame
    rw [gather, ← hsame] at h'
    exact h'

end Chesscoin.Lib.Collect

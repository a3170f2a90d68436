import Mathlib.Data.Finset.Card
import Mathlib.Data.Finset.Dedup
import Mathlib.Order.Basic
import Mathlib.Tactic.Linarith

/-!
Stores whose nodes point at their parents by key, and the best node of such a store.

A node names its parent by a key; a distinguished key `root` stands for no parent. The
store is rooted when every stored node is the end of a branch, a finite path of stored
nodes from one without parent. Branches are unique, survive the growth of the store, and
are what a walk along the parent keys collects. A rooted store in which a node is fixed by
its content and its parent's node is fixed by the contents at its keys, so two such stores
with the same contents are one.

The best node is the greatest by a rank. It can be kept up to date one insertion at a
time, and when ranks tell keys apart it does not depend on the order of the insertions.
-/

namespace Chesscoin.Lib.Linked

variable {K N : Type*} (root : K) (parent : N → K)

/-- `l` is the path to the node at `k`, from a node without parent. -/
inductive Branch (look : K → Option N) : K → List N → Prop
  | base {k : K} {n : N} : look k = some n → parent n = root → Branch look k [n]
  | snoc {k : K} {n : N} {l : List N} :
      look k = some n → parent n ≠ root → Branch look (parent n) l → Branch look k (l ++ [n])

/-- Every stored node is the end of a branch. -/
def Rooted (look : K → Option N) : Prop :=
  ∀ k n, look k = some n → ∃ l, Branch root parent look k l

/-- Every node stored before is stored after. -/
def Extends (look look' : K → Option N) : Prop := ∀ k n, look k = some n → look' k = some n

lemma Extends.refl (look : K → Option N) : Extends look look := fun _ _ h => h

lemma Extends.trans {a b c : K → Option N} (h : Extends a b) (h' : Extends b c) : Extends a c :=
  fun k n hk => h' k n (h k n hk)

variable {root parent} {look look' : K → Option N} {k : K} {n : N} {l l' : List N}

lemma Branch.unique (h : Branch root parent look k l) (h' : Branch root parent look k l') :
    l = l' := by
  induction h generalizing l' with
  | base hk hp =>
    cases h' with
    | base hk' hp' =>
      rw [hk] at hk'
      rw [Option.some.inj hk']
    | snoc hk' hp' _ =>
      rw [hk] at hk'
      cases hk'
      exact absurd hp hp'
  | snoc hk hp _ ih =>
    cases h' with
    | base hk' hp' =>
      rw [hk] at hk'
      cases hk'
      exact absurd hp' hp
    | snoc hk' hp' hl' =>
      rw [hk] at hk'
      cases hk'
      rw [ih hl']

/-- Branches survive the growth of the store. -/
lemma Branch.mono (hsub : Extends look look') (h : Branch root parent look k l) :
    Branch root parent look' k l := by
  induction h with
  | base hk hp => exact .base (hsub _ _ hk) hp
  | snoc hk hp _ ih => exact .snoc (hsub _ _ hk) hp ih

lemma Branch.look_eq (h : Branch root parent look k l) : look k = l.getLast? := by
  cases h with
  | base hk _ => simpa using hk
  | snoc hk _ _ => simpa using hk

lemma Branch.ne_nil (h : Branch root parent look k l) : l ≠ [] := by
  cases h <;> simp

lemma Branch.stored (h : Branch root parent look k l) : ∀ a ∈ l, ∃ k', look k' = some a := by
  induction h with
  | base hk _ =>
    intro a ha
    rw [List.mem_singleton.mp ha]
    exact ⟨_, hk⟩
  | snoc hk _ _ ih =>
    intro a ha
    rcases List.mem_append.mp ha with ha | ha
    · exact ih a ha
    · rw [List.mem_singleton.mp ha]
      exact ⟨_, hk⟩

lemma Branch.head_parent (h : Branch root parent look k l) :
    ∀ a, l.head? = some a → parent a = root := by
  induction h with
  | base _ hp =>
    intro a ha
    cases ha
    exact hp
  | snoc _ _ hl ih =>
    intro a ha
    rw [List.head?_append_of_ne_nil _ hl.ne_nil] at ha
    exact ih a ha

/-- Each node of a branch after the first names the one before it. -/
lemma Branch.linked (h : Branch root parent look k l) :
    ∀ i a b, l[i]? = some a → l[i + 1]? = some b → parent b ≠ root ∧ look (parent b) = some a := by
  induction h with
  | base _ _ =>
    intro i a b _ hb
    simp at hb
  | @snoc k n l hk hp hl ih =>
    intro i a b ha hb
    rcases Nat.lt_trichotomy (i + 1) l.length with hi | hi | hi
    · rw [List.getElem?_append_left (by omega)] at ha
      rw [List.getElem?_append_left hi] at hb
      exact ih i a b ha hb
    · have hbn : b = n := by simpa [hi] using hb.symm
      subst hbn
      refine ⟨hp, ?_⟩
      rw [hl.look_eq, List.getLast?_eq_getElem?, ← ha, List.getElem?_append_left (by omega)]
      congr 1
      omega
    · rw [List.getElem?_append_right (by omega)] at hb
      simp only [List.getElem?_singleton] at hb
      split at hb
      · omega
      · cases hb

/-- **Growth.** One node under a stored parent, or without one, keeps the store rooted. -/
theorem Rooted.insert (h : Rooted root parent look) (hsub : Extends look look')
    (hk : look' k = some n) (hother : ∀ k', k' ≠ k → look' k' = look k')
    (hp : parent n = root ∨ ∃ p, look (parent n) = some p) : Rooted root parent look' := by
  classical
  intro k' n' hk'
  by_cases he : k' = k
  · subst he
    rw [hk] at hk'
    cases hk'
    by_cases hr : parent n = root
    · exact ⟨_, .base hk hr⟩
    · obtain ⟨p, hp⟩ := hp.resolve_left hr
      obtain ⟨l, hl⟩ := h _ _ hp
      exact ⟨_, .snoc hk hr (hl.mono hsub)⟩
  · rw [hother k' he] at hk'
    obtain ⟨l, hl⟩ := h _ _ hk'
    exact ⟨l, hl.mono hsub⟩

/-! ### Walking a branch -/

/-- The walk from a key along the parent keys: the nodes met, the last one first; `none`
when the fuel runs out before the walk ends. -/
def walk [DecidableEq K] (root : K) (parent : N → K) (look : K → Option N) :
    ℕ → Option K → List N → Option (List N)
  | _, none, acc => some acc
  | 0, some _, _ => none
  | fuel + 1, some k, acc =>
    match look k with
    | none => some acc
    | some n => walk root parent look fuel (if parent n = root then none else some (parent n))
        (n :: acc)

/-- **The walk collects the branch**, and its length is fuel enough. -/
theorem walk_branch [DecidableEq K] (h : Branch root parent look k l) {fuel : ℕ}
    (hfuel : l.length ≤ fuel) (acc : List N) :
    walk root parent look fuel (some k) acc = some (l ++ acc) := by
  induction h generalizing fuel acc with
  | base hk hp =>
    obtain ⟨fuel, rfl⟩ : ∃ f, fuel = f + 1 := ⟨fuel - 1, by simp at hfuel; omega⟩
    simp only [walk, hk, hp, if_true]
    cases fuel <;> rfl
  | snoc hk hp _ ih =>
    simp only [List.length_append, List.length_singleton] at hfuel
    obtain ⟨fuel, rfl⟩ : ∃ f, fuel = f + 1 := ⟨fuel - 1, by omega⟩
    simp only [walk, hk, hp, if_false]
    rw [ih (by omega)]
    simp

/-- The nodes of a branch stand at different keys. -/
lemma Branch.keys (h : Branch root parent look k l) :
    ∃ ks : List K, ks.length = l.length ∧ ks.Nodup ∧
      ∀ k' ∈ ks, ∃ l', Branch root parent look k' l' ∧ l'.length ≤ l.length := by
  induction h with
  | base hk hp => exact ⟨[_], rfl, List.nodup_singleton _, fun k' hk' => by
      rw [List.mem_singleton.mp hk']
      exact ⟨_, .base hk hp, le_rfl⟩⟩
  | @snoc k n l hk hp hl ih =>
    obtain ⟨ks, hlen, hnodup, hks⟩ := ih
    have hb : Branch root parent look k (l ++ [n]) := .snoc hk hp hl
    have hnew : k ∉ ks := by
      intro hmem
      obtain ⟨l', hl', hle⟩ := hks k hmem
      have := hb.unique hl'
      rw [← this, List.length_append, List.length_singleton] at hle
      omega
    refine ⟨k :: ks, by simp [hlen], List.nodup_cons.mpr ⟨hnew, hnodup⟩, ?_⟩
    intro k' hk'
    rcases List.mem_cons.mp hk' with rfl | hk'
    · exact ⟨_, hb, le_rfl⟩
    · obtain ⟨l', hl', hle⟩ := hks k' hk'
      exact ⟨l', hl', by rw [List.length_append]; omega⟩

/-- **A branch is no longer than the store.** -/
theorem Branch.length_le (h : Branch root parent look k l) (s : Finset K)
    (hs : ∀ k n, look k = some n → k ∈ s) : l.length ≤ s.card := by
  classical
  obtain ⟨ks, hlen, hnodup, hks⟩ := h.keys
  rw [← hlen, ← List.toFinset_card_of_nodup hnodup]
  refine Finset.card_le_card fun k' hk' => ?_
  obtain ⟨l', hl', -⟩ := hks k' (List.mem_toFinset.mp hk')
  obtain ⟨x, xs, rfl⟩ := List.exists_cons_of_ne_nil hl'.ne_nil
  obtain ⟨p, hp⟩ := Option.isSome_iff_exists.mp (show ((x :: xs).getLast?).isSome from by simp)
  exact hs k' p (hl'.look_eq.trans hp)

/-! ### Stores with the same contents -/

/-- A node is fixed by its key, its content and the node of its parent. -/
def Built {C : Type*} [DecidableEq K] (root : K) (parent : N → K) (content : N → C)
    (build : K → C → Option N → N) (look : K → Option N) : Prop :=
  ∀ k n, look k = some n →
    n = build k (content n) (if parent n = root then none else look (parent n))

/-- **Agreement.** Rooted stores built alike, with the same contents at the same keys, are
equal. -/
theorem look_eq_of_content {C : Type*} [DecidableEq K] {content : N → C}
    {build : K → C → Option N → N} (hroot : Rooted root parent look)
    (hbuilt : Built root parent content build look)
    (hbuilt' : Built root parent content build look')
    (hpar : ∀ k n m, look k = some n → look' k = some m → content n = content m →
      parent n = parent m)
    (hdom : ∀ k, look k = none ↔ look' k = none)
    (hcontent : ∀ k n m, look k = some n → look' k = some m → content n = content m) :
    look = look' := by
  have hbranch : ∀ k l, Branch root parent look k l → look k = look' k := by
    intro k l h
    induction h with
    | @base k n hk hp =>
      obtain ⟨m, hm⟩ : ∃ m, look' k = some m := Option.ne_none_iff_exists'.mp fun h => by
        rw [(hdom k).mpr h] at hk; cases hk
      have hc := hcontent k n m hk hm
      have h1 := hbuilt k n hk
      have h2 := hbuilt' k m hm
      rw [← hpar k n m hk hm hc, if_pos hp, ← hc] at h2
      rw [if_pos hp] at h1
      rw [hk, hm, h2, ← h1]
    | @snoc k n l hk hp hl ih =>
      obtain ⟨m, hm⟩ : ∃ m, look' k = some m := Option.ne_none_iff_exists'.mp fun h => by
        rw [(hdom k).mpr h] at hk; cases hk
      have hc := hcontent k n m hk hm
      have h1 := hbuilt k n hk
      have h2 := hbuilt' k m hm
      rw [← hpar k n m hk hm hc, if_neg hp, ← hc, ← ih] at h2
      rw [if_neg hp] at h1
      rw [hk, hm, h2, ← h1]
  funext k
  cases hk : look k with
  | none => exact ((hdom k).mp hk).symm
  | some n =>
    obtain ⟨l, hl⟩ := hroot k n hk
    rw [← hk]
    exact hbranch k l hl

/-! ### The best node -/

variable {R : Type*} [LinearOrder R] {rank : N → R}

/-- `best` is the key of a node of greatest rank, and `none` for an empty store. -/
def Best (rank : N → R) (look : K → Option N) : Option K → Prop
  | none => ∀ k, look k = none
  | some k => ∃ n, look k = some n ∧ ∀ k' n', look k' = some n' → rank n' ≤ rank n

lemma Best.insert_first (h : Best rank look none) (hk : look' k = some n)
    (hother : ∀ k', k' ≠ k → look' k' = look k') : Best rank look' (some k) := by
  classical
  refine ⟨n, hk, fun k' n' hk' => ?_⟩
  by_cases he : k' = k
  · subst he
    rw [hk] at hk'
    cases hk'
    exact le_rfl
  · rw [hother k' he, h k'] at hk'
    cases hk'

lemma Best.insert_better {b : K} {m : N} (h : Best rank look (some b)) (hb : look b = some m)
    (hk : look' k = some n) (hother : ∀ k', k' ≠ k → look' k' = look k')
    (hlt : rank m < rank n) : Best rank look' (some k) := by
  classical
  obtain ⟨m', hm', hmax⟩ := h
  rw [hb] at hm'
  cases hm'
  refine ⟨n, hk, fun k' n' hk' => ?_⟩
  by_cases he : k' = k
  · subst he
    rw [hk] at hk'
    cases hk'
    exact le_rfl
  · rw [hother k' he] at hk'
    exact (hmax k' n' hk').trans hlt.le

lemma Best.insert_keep {b : K} {m : N} (h : Best rank look (some b)) (hb : look b = some m)
    (hsub : Extends look look') (hk : look' k = some n)
    (hother : ∀ k', k' ≠ k → look' k' = look k') (hle : rank n ≤ rank m) :
    Best rank look' (some b) := by
  classical
  obtain ⟨m', hm', hmax⟩ := h
  rw [hb] at hm'
  cases hm'
  refine ⟨m, hsub b m hb, fun k' n' hk' => ?_⟩
  by_cases he : k' = k
  · subst he
    rw [hk] at hk'
    cases hk'
    exact hle
  · rw [hother k' he] at hk'
    exact hmax k' n' hk'

/-- **The best node is one**, when ranks tell keys apart. -/
theorem Best.unique {a b : Option K} (ha : Best rank look a) (hb : Best rank look b)
    (hinj : ∀ k k' n n', look k = some n → look k' = some n' → rank n = rank n' → k = k') :
    a = b := by
  cases a with
  | none =>
    cases b with
    | none => rfl
    | some b =>
      obtain ⟨m, hm, -⟩ := hb
      rw [ha b] at hm
      cases hm
  | some a =>
    obtain ⟨n, hn, hmax⟩ := ha
    cases b with
    | none =>
      rw [hb a] at hn
      cases hn
    | some b =>
      obtain ⟨m, hm, hmax'⟩ := hb
      have := hinj a b n m hn hm (le_antisymm (hmax' a n hn) (hmax b m hm))
      rw [this]

end Chesscoin.Lib.Linked

import Chesscoin.Lib.Parting
import Chesscoin.Screening

/-!
Where two chains part, and where a locator leads.

A block names the block before it, so a block on two chains stands at one height on both, above
the same blocks. A locator leads to the point where the chains part as long as it reaches down
to a block below it, and to the beginning otherwise.
-/

namespace Chesscoin.Overlap

open Chesscoin.Lib.Linked Chesscoin.Lib.Parting Chesscoin.Domain Chesscoin.Simulator
  Chesscoin.Validation Chesscoin.ForkChoice Chesscoin.ForkTree Chesscoin.Locator
  Chesscoin.Screening

variable {hasher : HashPort} {sampler : SamplingPort} {config : ChainConfig}
  {as bs : List Block} {B : Block → Prop}

/-- The headers of a run have hashes of their own, none of them the zero digest. -/
structure OwnHashes (hasher : HashPort) (B : Block → Prop) : Prop where
  nonzero : ∀ b, B b → blockHash hasher b ≠ Digest.zero
  distinct : ∀ b b', B b → B b' → blockHash hasher b = blockHash hasher b' →
    b.header = b'.header

/-- The number of blocks two chains have in common. -/
def sharedLength (hasher : HashPort) (as bs : List Block) : ℕ :=
  shared (as.map (blockHash hasher)) (bs.map (blockHash hasher))

lemma sharedLength_le_left (as bs : List Block) : sharedLength hasher as bs ≤ as.length := by
  have hle := shared_le_left (as.map (blockHash hasher)) (bs.map (blockHash hasher))
  rwa [List.length_map] at hle

lemma sharedLength_le_right (as bs : List Block) : sharedLength hasher as bs ≤ bs.length := by
  have hle := shared_le_right (as.map (blockHash hasher)) (bs.map (blockHash hasher))
  rwa [List.length_map] at hle

lemma getElem?_hash {i : ℕ} {d : Digest} :
    (as.map (blockHash hasher))[i]? = some d ↔ ∃ b, as[i]? = some b ∧ blockHash hasher b = d := by
  rw [List.getElem?_map, Option.map_eq_some_iff]

/-- Below the point where two chains part, a block of one is in its place on the other. -/
lemma exists_shared {i : ℕ} {b : Block} (hi : i < sharedLength hasher as bs)
    (hb : bs[i]? = some b) : ∃ a, as[i]? = some a ∧ blockHash hasher a = blockHash hasher b :=
  getElem?_hash.mp ((getElem?_shared hi).trans (getElem?_hash.mpr ⟨b, hb, rfl⟩))

/-- The blocks of a part of a chain, by their places. -/
lemma mem_part {s n : ℕ} {b : Block} :
    b ∈ (as.drop s).take n ↔ ∃ i, s ≤ i ∧ i < s + n ∧ as[i]? = some b := by
  rw [List.mem_iff_getElem?]
  constructor
  · rintro ⟨j, hj⟩
    rw [List.getElem?_take] at hj
    split at hj
    · rw [List.getElem?_drop] at hj
      exact ⟨s + j, by omega, by omega, hj⟩
    · cases hj
  · rintro ⟨i, hlow, hhigh, hi⟩
    refine ⟨i - s, ?_⟩
    rw [List.getElem?_take, if_pos (by omega), List.getElem?_drop, Nat.add_sub_cancel' hlow, hi]

lemma prevHash_zero (blocks : List Block) : prevHash hasher blocks 0 = Digest.zero := rfl

/-- **A block is on two chains at one height**, above the same blocks. -/
theorem replayed_parts (hown : OwnHashes hasher B)
    (ha : Replayed hasher sampler config as) (hb : Replayed hasher sampler config bs)
    (hasB : ∀ b ∈ as, B b) (hbsB : ∀ b ∈ bs, B b) :
    Parts (as.map (blockHash hasher)) (bs.map (blockHash hasher)) := by
  intro i
  induction i with
  | zero =>
    intro j d hi hj
    obtain ⟨a, hget, rfl⟩ := getElem?_hash.mp hi
    obtain ⟨b, hget', hhash⟩ := getElem?_hash.mp hj
    have hheader := hown.distinct b a (hbsB b (List.mem_of_getElem? hget'))
      (hasB a (List.mem_of_getElem? hget)) hhash
    have hprev := ha.previousBlock hget
    rw [prevHash_zero, ← hheader, hb.previousBlock hget'] at hprev
    cases j with
    | zero => exact ⟨rfl, rfl⟩
    | succ j =>
      obtain ⟨hlt, -⟩ := List.getElem?_eq_some_iff.mp hget'
      have hbefore := List.getElem?_eq_getElem (Nat.lt_of_succ_lt hlt)
      rw [prevHash_succ hbefore] at hprev
      exact absurd hprev (hown.nonzero _ (hbsB _ (List.mem_of_getElem? hbefore)))
  | succ i ih =>
    intro j d hi hj
    obtain ⟨a, hget, rfl⟩ := getElem?_hash.mp hi
    obtain ⟨b, hget', hhash⟩ := getElem?_hash.mp hj
    have hheader := hown.distinct b a (hbsB b (List.mem_of_getElem? hget'))
      (hasB a (List.mem_of_getElem? hget)) hhash
    obtain ⟨hlt, -⟩ := List.getElem?_eq_some_iff.mp hget
    have hbefore := List.getElem?_eq_getElem (Nat.lt_of_succ_lt hlt)
    have hprev := ha.previousBlock hget
    rw [prevHash_succ hbefore, ← hheader, hb.previousBlock hget'] at hprev
    cases j with
    | zero => exact absurd hprev.symm (hown.nonzero _ (hasB _ (List.mem_of_getElem? hbefore)))
    | succ j =>
      obtain ⟨hlt', -⟩ := List.getElem?_eq_some_iff.mp hget'
      have hbefore' := List.getElem?_eq_getElem (Nat.lt_of_succ_lt hlt')
      rw [prevHash_succ hbefore'] at hprev
      obtain ⟨rfl, htake⟩ := ih j _ (getElem?_hash.mpr ⟨_, hbefore, rfl⟩)
        (getElem?_hash.mpr ⟨_, hbefore', hprev⟩)
      refine ⟨rfl, ?_⟩
      rw [List.take_add_one, List.take_add_one, htake, List.getElem?_map, List.getElem?_map,
        hbefore, hbefore', Option.map_some, Option.map_some, hprev]

/-! ### Where a locator leads -/

/-- Where a node with these blocks starts serving after a locator. -/
def leadsTo (hasher : HashPort) (blocks : List Block) (locator : List Digest) : ℕ :=
  (locator.findSome? (startAfter (blocks.map (blockHash hasher)))).getD 0

lemma blocksAfterLocator_eq (chain : ChainState) (locator : List Digest) (limit : ℕ) :
    blocksAfterLocator hasher chain locator limit =
      (chain.blocks.drop (leadsTo hasher chain.blocks locator)).take limit := rfl

/-- The zero digest at the end of a locator leads where no hash at all leads. -/
lemma leadsTo_newest (chain : ChainState) (maxHashes : ℕ) (blocks : List Block) :
    leadsTo hasher blocks (blockLocator hasher chain maxHashes) =
      leadsTo hasher blocks ((chain.blocks.reverse.take maxHashes).map (blockHash hasher)) := by
  unfold blockLocator
  split
  · next hz => rw [hz, List.take_zero, List.map_nil]
  · simp only
    split
    · unfold leadsTo
      rw [List.findSome?_append]
      cases ((chain.blocks.reverse.take maxHashes).map (blockHash hasher)).findSome?
          (startAfter (blocks.map (blockHash hasher))) with
      | none => rfl
      | some s => rfl
    · rfl

/-- The newest blocks, newest first. -/
lemma reverse_take (chain : List Block) (maxHashes : ℕ) :
    chain.reverse.take maxHashes = (chain.drop (chain.length - maxHashes)).reverse :=
  List.take_reverse

/-- No block above the point where two chains part leads anywhere. -/
lemma findSome?_unshared
    (hparts : Parts (as.map (blockHash hasher)) (bs.map (blockHash hasher)))
    (hnonzero : ∀ b ∈ as, blockHash hasher b ≠ Digest.zero) {k : ℕ}
    (hk : sharedLength hasher as bs ≤ k) :
    ((as.drop k).reverse.map (blockHash hasher)).findSome?
      (startAfter (bs.map (blockHash hasher))) = none := by
  rw [List.findSome?_eq_none_iff]
  intro d hd
  obtain ⟨b, hb, rfl⟩ := List.mem_map.mp hd
  rw [List.mem_reverse] at hb
  refine startAfter_eq_none.mpr ⟨hnonzero b (List.mem_of_mem_drop hb), fun hmem => ?_⟩
  obtain ⟨i, hi⟩ := List.mem_iff_getElem?.mp hb
  rw [List.getElem?_drop] at hi
  have hlt := (hparts.mem_iff (getElem?_hash.mpr ⟨b, hi, rfl⟩)).mp hmem
  have hshared : sharedLength hasher as bs ≤ k + i := by omega
  exact absurd hlt (not_lt.mpr hshared)

/-- A block below it leads to the one on top of it. -/
lemma startAfter_shared
    (hparts : Parts (as.map (blockHash hasher)) (bs.map (blockHash hasher)))
    (hnonzero : ∀ b ∈ as, blockHash hasher b ≠ Digest.zero) {i : ℕ} {a : Block}
    (ha : as[i]? = some a) (hi : i < sharedLength hasher as bs) :
    startAfter (bs.map (blockHash hasher)) (blockHash hasher a) = some (i + 1) := by
  have hget : (as.map (blockHash hasher))[i]? = some (blockHash hasher a) :=
    getElem?_hash.mpr ⟨a, ha, rfl⟩
  have hmem : blockHash hasher a ∈ bs.map (blockHash hasher) := (hparts.mem_iff hget).mpr hi
  cases hstart : startAfter (bs.map (blockHash hasher)) (blockHash hasher a) with
  | none => exact absurd hmem (startAfter_eq_none.mp hstart).2
  | some s =>
    have hz := hnonzero a (List.mem_of_getElem? ha)
    obtain ⟨j, b, rfl, hb, hhash⟩ := (startAfter_eq_some hstart).2.2 hz
    obtain ⟨rfl, -⟩ := hparts i j _ hget (getElem?_hash.mpr ⟨b, hb, hhash⟩)
    rfl

/-- The part of a list from `k` on, around the entry at `i`. -/
lemma drop_around {α : Type} {l : List α} {i k : ℕ} (hi : i < l.length) (hk : k ≤ i) :
    l.drop k = (l.take i).drop k ++ l[i] :: l.drop (i + 1) := by
  have hwhole : l.take i ++ l[i] :: l.drop (i + 1) = l := by
    rw [← List.drop_eq_getElem_cons hi, List.take_append_drop]
  have hcut : k ≤ (l.take i).length := by
    rw [List.length_take]
    omega
  rw [← List.drop_append_of_le_length hcut, hwhole]

/-- **A locator leads to the point where the chains part** when it reaches below it, and to the
first block when it does not. -/
theorem leadsTo_blockLocator (chain : ChainState) (maxHashes : ℕ)
    (hparts : Parts (chain.blocks.map (blockHash hasher)) (bs.map (blockHash hasher)))
    (hnonzero : ∀ b ∈ chain.blocks, blockHash hasher b ≠ Digest.zero) :
    leadsTo hasher bs (blockLocator hasher chain maxHashes) =
      if chain.blocks.length - maxHashes < sharedLength hasher chain.blocks bs then
        sharedLength hasher chain.blocks bs
      else 0 := by
  have hle : sharedLength hasher chain.blocks bs ≤ chain.blocks.length := sharedLength_le_left _ _
  rw [leadsTo_newest, reverse_take]
  split
  · next hsight =>
    obtain ⟨i, hi⟩ : ∃ i, sharedLength hasher chain.blocks bs = i + 1 :=
      Nat.exists_eq_succ_of_ne_zero (by omega)
    have hlt : i < chain.blocks.length := by omega
    -- the newest block they share, with what is above and below it in the locator
    have hsplit := drop_around (k := chain.blocks.length - maxHashes) hlt (by omega)
    have hleads := startAfter_shared hparts hnonzero (List.getElem?_eq_getElem hlt) (by omega)
    have habove := findSome?_unshared hparts hnonzero (k := i + 1) (by omega)
    unfold leadsTo
    rw [hsplit, List.reverse_append, List.reverse_cons, List.append_assoc, List.map_append,
      List.findSome?_append, habove, Option.none_or, List.map_append, List.findSome?_append,
      List.map_singleton, List.findSome?_singleton, hleads, hi]
    rfl
  · next hout =>
    unfold leadsTo
    rw [findSome?_unshared hparts hnonzero (not_lt.mp hout)]
    rfl

end Chesscoin.Overlap

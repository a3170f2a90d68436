import Chesscoin.Adapters
import Chesscoin.ForkTree

/-!
What holds of the fork choice after any sequence of insertions.

`Tree` is stated for the proofs; `WellFormed` says the same in the terms of the source, node
by node and for the best chain, and adds the exact scores, which need that no sum of scores
has wrapped around.
-/

namespace Chesscoin.ForkInvariant

open Chesscoin.Lib.Linked Chesscoin.Domain Chesscoin.Simulator Chesscoin.Validation
  Chesscoin.Mining Chesscoin.ForkChoice Chesscoin.ForkTree Chesscoin.Adapters
open ForkChoiceState

variable {hasher : HashPort} {sampler : SamplingPort} {fc fc' : ForkChoiceState}

/-- No sum of scores made for a stored node has reached the end of 128 bits. -/
def ScoresFit (fc : ForkChoiceState) : Prop :=
  ∀ k n p, fc.look k = some n → n.parent ≠ Digest.zero → fc.look n.parent = some p →
    p.workScore + configuredBlockWorkScore fc.config.difficultyZeroBits < 2 ^ 128

structure WellFormed (hasher : HashPort) (sampler : SamplingPort) (fc : ForkChoiceState) :
    Prop where
  /-- Every node stands under the hash of its block. -/
  keyed : ∀ k n, fc.look k = some n → blockHash hasher n.block = k
  /-- Every block passed validation in the context of its parent. -/
  validated : ∀ k n, fc.look k = some n → ∃ ctx score,
    fc.parentContext n.block = .ok (ctx, score) ∧
      validateBlockAfter hasher sampler fc.config ctx n.block = .ok ()
  /-- A node is a first block, or one higher and one block's work above its parent. -/
  parent : ∀ k n, fc.look k = some n →
    (n.parent = Digest.zero ∧ n.nextHeight = 1 ∧
        n.workScore = configuredBlockWorkScore fc.config.difficultyZeroBits) ∨
      (n.parent ≠ Digest.zero ∧ ∃ p, fc.look n.parent = some p ∧
        n.nextHeight = p.nextHeight + 1 ∧
        n.workScore = p.workScore + configuredBlockWorkScore fc.config.difficultyZeroBits)
  noTip : fc.bestTip = none ↔ ∀ k, fc.look k = none
  /-- The best tip is stored and no stored node ranks above it, by work first, then by height
  and last by hash. -/
  tip : ∀ k, fc.bestTip = some k → ∃ n, fc.look k = some n ∧
    ∀ k' n', fc.look k' = some n' → rank n' ≤ rank n
  /-- The walk of the best chain ends. -/
  walk : ∃ l, fc.walkBestChain = some l ∧ fc.bestChain = l.map (·.block)
  first : ∀ b, fc.bestChain.head? = some b → b.header.previousBlock = Digest.zero
  linked : ∀ i a b, fc.bestChain[i]? = some a → fc.bestChain[i + 1]? = some b →
    b.header.previousBlock = blockHash hasher a
  last : fc.bestChain.getLast?.map (blockHash hasher) = fc.bestTip
  length : UInt64.ofNat fc.bestChain.length = fc.bestHeight

lemma blockWorkScore_lt (difficulty : UInt32) : configuredBlockWorkScore difficulty < 2 ^ 128 := by
  refine lt_of_le_of_lt (Nat.pow_le_pow_right (by norm_num) (Nat.min_le_right _ 120)) ?_
  norm_num

lemma parent_fields (h : Tree hasher sampler fc) (hfit : ScoresFit fc) {k : Digest}
    {n : ForkNode} (hk : fc.look k = some n) :
    (n.parent = Digest.zero ∧ n.nextHeight = 1 ∧
        n.workScore = configuredBlockWorkScore fc.config.difficultyZeroBits) ∨
      (n.parent ≠ Digest.zero ∧ ∃ p, fc.look n.parent = some p ∧
        n.nextHeight = p.nextHeight + 1 ∧
        n.workScore = p.workScore + configuredBlockWorkScore fc.config.difficultyZeroBits) := by
  have hs := h.stored k n hk
  obtain ⟨ctx, score, hctx, hv, hn⟩ := hs.made
  have hscore : n.workScore =
      (score + configuredBlockWorkScore fc.config.difficultyZeroBits) % 2 ^ 128 := by
    rw [hn]
    rfl
  rcases parentContext_ok hctx with ⟨hz, rfl, rfl⟩ | ⟨hz, p, hp, rfl, rfl⟩
  · refine .inl ⟨hs.parent.trans hz, ?_, ?_⟩
    · rw [hs.nextHeight, hv.height]
      rfl
    · rw [hscore, Nat.zero_add, Nat.mod_eq_of_lt (blockWorkScore_lt _)]
  · rw [← hs.parent] at hz hp
    refine .inr ⟨hz, p, hp, ?_, ?_⟩
    · rw [hs.nextHeight, hv.height]
      rfl
    · rw [hscore, Nat.mod_eq_of_lt (hfit k n p hk hz hp)]

lemma scoresFit_mono {fc fc' : ForkChoiceState} (hext : Extends fc.look fc'.look)
    (hconfig : fc'.config = fc.config) (h : ScoresFit fc') : ScoresFit fc := by
  intro k n p hk hp hlook
  rw [← hconfig]
  exact h k n p (hext _ _ hk) hp (hext _ _ hlook)

lemma blockWorkScore_pos (difficulty : UInt32) : 0 < configuredBlockWorkScore difficulty :=
  Nat.pow_pos (by decide)

/-! ### Few blocks fit -/

lemma workScore_le (h : Tree hasher sampler fc) {k : Digest} {l : List ForkNode}
    (hb : Branch Digest.zero ForkNode.parent fc.look k l) {n : ForkNode}
    (hk : fc.look k = some n) :
    n.workScore ≤ l.length * configuredBlockWorkScore fc.config.difficultyZeroBits := by
  induction hb generalizing n with
  | @base k m hm hp =>
    rw [hk, Option.some.injEq] at hm
    subst hm
    have hs := h.stored k n hk
    obtain ⟨ctx, score, hctx, -, hn⟩ := hs.made
    rcases parentContext_ok hctx with ⟨-, -, rfl⟩ | ⟨hz, -⟩
    · rw [hn]
      refine (Nat.mod_le _ _).trans ?_
      simp
    · exact absurd (hs.parent.symm.trans hp) hz
  | @snoc k m l hm hp hl ih =>
    rw [hk, Option.some.injEq] at hm
    subst hm
    have hs := h.stored k n hk
    obtain ⟨ctx, score, hctx, -, hn⟩ := hs.made
    rcases parentContext_ok hctx with ⟨hz, -⟩ | ⟨-, p, hlook, -, rfl⟩
    · exact absurd (hs.parent.trans hz) hp
    · rw [← hs.parent] at hlook
      have hscore := ih hlook
      rw [hn]
      refine (Nat.mod_le _ _).trans ?_
      rw [List.length_append, List.length_singleton, Nat.succ_mul]
      exact Nat.add_le_add_right hscore _

lemma scoresFit_of_count (h : Tree hasher sampler fc)
    (hcount : fc.knownBlockCount * configuredBlockWorkScore fc.config.difficultyZeroBits <
      2 ^ 128) : ScoresFit fc := by
  intro k n p hk hp hlook
  obtain ⟨l, hl⟩ := h.rooted k n hk
  cases hl with
  | base hk' hp' =>
    rw [hk] at hk'
    cases hk'
    exact absurd hp' hp
  | @snoc _ m l hk' hp' hl =>
    rw [hk] at hk'
    cases hk'
    have hscore := workScore_le h hl hlook
    have hlen := branch_length_le (Branch.snoc hk hp' hl)
    rw [List.length_append, List.length_singleton] at hlen
    refine lt_of_le_of_lt ?_ hcount
    calc p.workScore + configuredBlockWorkScore fc.config.difficultyZeroBits
        ≤ l.length * configuredBlockWorkScore fc.config.difficultyZeroBits +
            configuredBlockWorkScore fc.config.difficultyZeroBits := Nat.add_le_add_right hscore _
      _ = (l.length + 1) * configuredBlockWorkScore fc.config.difficultyZeroBits := by ring
      _ ≤ fc.knownBlockCount * configuredBlockWorkScore fc.config.difficultyZeroBits :=
          Nat.mul_le_mul_right _ hlen

lemma knownBlockCount_insertBlock (hasher : HashPort) (sampler : SamplingPort)
    (fc : ForkChoiceState) (block : Block) :
    (fc.insertBlock hasher sampler block).2.knownBlockCount ≤ fc.knownBlockCount + 1 := by
  rcases insertBlock_cases hasher sampler fc block with
    ⟨-, hr⟩ | ⟨e, -, -, hr⟩ | ⟨ctx, score, -, -, -, hr⟩
  · rw [hr]
    exact Nat.le_succ _
  · rw [hr]
    exact Nat.le_succ _
  · rw [hr]
    have hsub : (fc.addNode (fc.forkNode hasher score block)).nodes.keys ⊆
        insert (blockHash hasher block) fc.nodes.keys := by
      intro k hk
      rw [Finmap.mem_keys, ← Finmap.lookup_isSome] at hk
      rw [Finset.mem_insert, Finmap.mem_keys, ← Finmap.lookup_isSome]
      by_cases he : k = blockHash hasher block
      · exact .inl he
      · refine .inr ?_
        rwa [show (fc.addNode _).nodes.lookup k = fc.nodes.lookup k from
          addNode_look_of_ne he] at hk
    exact (Finset.card_le_card hsub).trans (Finset.card_insert_le _ _)

lemma knownBlockCount_insertAll (hasher : HashPort) (sampler : SamplingPort)
    (fc : ForkChoiceState) (blocks : List Block) :
    (fc.insertAll hasher sampler blocks).knownBlockCount ≤
      fc.knownBlockCount + blocks.length := by
  induction blocks generalizing fc with
  | nil => exact le_rfl
  | cons block blocks ih =>
    refine (ih (fc.insertBlock hasher sampler block).2).trans ?_
    have := knownBlockCount_insertBlock hasher sampler fc block
    rw [List.length_cons]
    omega

/-- **Scores fit while blocks are few**, whatever the difficulty. -/
theorem scoresFit_of_few (config : ChainConfig) (blocks : List Block)
    (h : blocks.length < 256) :
    ScoresFit ((new config).insertAll hasher sampler blocks) := by
  refine scoresFit_of_count ((Tree.new hasher sampler config).insertAll blocks) ?_
  have hcount := knownBlockCount_insertAll hasher sampler (new config) blocks
  have hzero : (new config).knownBlockCount = 0 := rfl
  have hscore : configuredBlockWorkScore
      ((new config).insertAll hasher sampler blocks).config.difficultyZeroBits ≤ 2 ^ 120 :=
    Nat.pow_le_pow_right (by norm_num) (Nat.min_le_right _ 120)
  calc _ ≤ 255 * 2 ^ 120 := Nat.mul_le_mul (by omega) hscore
    _ < 2 ^ 128 := by norm_num

/-! ### The best chain -/

lemma branch_linked (h : Tree hasher sampler fc) {k : Digest} {l : List ForkNode}
    (hb : Branch Digest.zero ForkNode.parent fc.look k l) {i : ℕ} {a b : Block}
    (ha : (l.map (·.block))[i]? = some a) (hnext : (l.map (·.block))[i + 1]? = some b) :
    b.header.previousBlock = blockHash hasher a := by
  rw [List.getElem?_map] at ha hnext
  obtain ⟨n, hn, rfl⟩ := Option.map_eq_some_iff.mp ha
  obtain ⟨m, hm, rfl⟩ := Option.map_eq_some_iff.mp hnext
  obtain ⟨-, hlook⟩ := hb.linked i n m hn hm
  obtain ⟨km, hkm⟩ := hb.stored m (List.mem_of_getElem? hm)
  rw [(h.stored _ n hlook).keyed, (h.stored _ m hkm).parent]

lemma branch_first (h : Tree hasher sampler fc) {k : Digest} {l : List ForkNode}
    (hb : Branch Digest.zero ForkNode.parent fc.look k l) {b : Block}
    (hhead : (l.map (·.block)).head? = some b) : b.header.previousBlock = Digest.zero := by
  rw [List.head?_map] at hhead
  obtain ⟨n, hn, rfl⟩ := Option.map_eq_some_iff.mp hhead
  obtain ⟨kn, hkn⟩ := hb.stored n (List.mem_of_head? hn)
  rw [← (h.stored _ n hkn).parent]
  exact hb.head_parent n hn

lemma branch_last (h : Tree hasher sampler fc) {k : Digest} {l : List ForkNode}
    (hb : Branch Digest.zero ForkNode.parent fc.look k l) :
    (l.map (·.block)).getLast?.map (blockHash hasher) = some k := by
  obtain ⟨n, hn, -, -⟩ := h.replay_branch hb
  have hlast : l.getLast? = some n := hb.look_eq.symm.trans hn
  rw [List.getLast?_map, hlast, Option.map_some, Option.map_some, (h.stored k n hn).keyed]

lemma branch_length (h : Tree hasher sampler fc) {k : Digest} {l : List ForkNode} {n : ForkNode}
    (hb : Branch Digest.zero ForkNode.parent fc.look k l) (hk : fc.look k = some n) :
    UInt64.ofNat (l.map (·.block)).length = n.nextHeight := by
  obtain ⟨n', hn', -, hhead⟩ := h.replay_branch hb
  rw [hk] at hn'
  cases hn'
  exact congrArg ParentContext.height hhead

/-- A tree whose scores have not wrapped is well formed. -/
theorem wellFormed_of_tree (h : Tree hasher sampler fc) (hfit : ScoresFit fc) :
    WellFormed hasher sampler fc := by
  have hbest := h.best
  rcases h.walkBestChain with ⟨htip, hw⟩ | ⟨tip, n, l, htip, hlook, hb, hw⟩
  · have hchain : fc.bestChain = [] := Tree.bestChain_nil htip
    rw [htip] at hbest
    refine ⟨fun k n hk => (h.stored k n hk).keyed, ?_, fun k n hk => parent_fields h hfit hk,
      ⟨fun _ => hbest, fun _ => htip⟩, ?_, ⟨[], hw, hchain⟩, ?_, ?_, ?_, ?_⟩
    · intro k n hk
      rw [hbest k] at hk
      cases hk
    · intro k hk
      rw [htip] at hk
      cases hk
    · intro b hhead
      rw [hchain] at hhead
      cases hhead
    · intro i a b ha
      rw [hchain] at ha
      cases ha
    · rw [hchain, htip]
      rfl
    · rw [hchain, bestHeight, htip]
      rfl
  · have hchain : fc.bestChain = l.map (·.block) := h.bestChain_eq htip hb
    rw [htip] at hbest
    obtain ⟨n', hn', hmax⟩ := hbest
    refine ⟨fun k n hk => (h.stored k n hk).keyed, ?_, fun k n hk => parent_fields h hfit hk,
      ?_, ?_, ⟨l, hw, hchain⟩, ?_, ?_, ?_, ?_⟩
    · intro k n hk
      obtain ⟨ctx, score, hctx, hv, -⟩ := (h.stored k n hk).made
      exact ⟨ctx, score, hctx, (validateBlockAfter_ok hasher sampler fc.config ctx _).mpr hv⟩
    · rw [htip]
      refine ⟨fun hnone => (nomatch hnone), fun hnone => ?_⟩
      rw [hnone tip] at hlook
      cases hlook
    · intro k hk
      rw [htip] at hk
      cases hk
      exact ⟨n', hn', hmax⟩
    · intro b hhead
      rw [hchain] at hhead
      exact branch_first h hb hhead
    · intro i a b ha hnext
      rw [hchain] at ha hnext
      exact branch_linked h hb ha hnext
    · rw [hchain, htip]
      exact branch_last h hb
    · rw [hchain, branch_length h hb hlook, bestHeight, htip, Option.bind_some, hlook]
      rfl

/-! ### One insertion -/

/-- What an insertion keeps: a refusal changes nothing, and a success leaves every stored
node as it is, adds at most the block's own, and never makes the best tip a worse one. -/
structure Keeps (hasher : HashPort) (sampler : SamplingPort) (fc : ForkChoiceState)
    (block : Block) : Prop where
  refused : ∀ e fc', fc.insertBlock hasher sampler block = (.error e, fc') → fc' = fc
  hash : ∀ hash fc', fc.insertBlock hasher sampler block = (.ok hash, fc') →
    hash = blockHash hasher block ∧ ∃ n, fc'.look hash = some n
  others : ∀ hash fc', fc.insertBlock hasher sampler block = (.ok hash, fc') →
    ∀ k, k ≠ hash → fc'.look k = fc.look k
  stored : ∀ r fc', fc.insertBlock hasher sampler block = (r, fc') →
    ∀ k n, fc.look k = some n → fc'.look k = some n
  tip : ∀ r fc', fc.insertBlock hasher sampler block = (r, fc') →
    ∀ tip n, fc.bestTip = some tip → fc.look tip = some n →
      ∃ tip' n', fc'.bestTip = some tip' ∧ fc'.look tip' = some n' ∧
        (tip' = tip ∨ tip' = blockHash hasher block) ∧ rank n ≤ rank n'

theorem keeps_of_tree (h : Tree hasher sampler fc) (block : Block) :
    Keeps hasher sampler fc block := by
  rcases insertBlock_cases hasher sampler fc block with
    ⟨hc, hr⟩ | ⟨e, hnew, -, hr⟩ | ⟨ctx, score, hnew, hctx, hv, hr⟩
  · refine ⟨?_, ?_, ?_, ?_, ?_⟩ <;> intro r fc' heq <;> rw [hr] at heq <;> cases heq
    · exact ⟨rfl, (containsBlock_iff _).mp hc⟩
    · exact fun _ _ => rfl
    · exact fun _ _ hk => hk
    · exact fun tip n htip hlook => ⟨tip, n, htip, hlook, .inl rfl, le_rfl⟩
  · refine ⟨?_, ?_, ?_, ?_, ?_⟩ <;> intro r fc' heq <;> rw [hr] at heq <;> cases heq
    · rfl
    · exact fun _ _ hk => hk
    · exact fun tip n htip hlook => ⟨tip, n, htip, hlook, .inl rfl, le_rfl⟩
  · have hself := addNode_look_self fc (fc.forkNode hasher score block)
    have hext := addNode_extends (fc.forkNode hasher score block) hnew
    refine ⟨?_, ?_, ?_, ?_, ?_⟩ <;> intro r fc' heq <;> rw [hr] at heq <;> cases heq
    · exact ⟨rfl, _, hself⟩
    · exact fun k hk => addNode_look_of_ne hk
    · exact hext
    · intro tip n htip hlook
      rcases addNode_bestTip (fc.forkNode hasher score block) h.best hnew with
        ⟨hnone, -⟩ | ⟨tip', best, htip', hbest, ⟨hlt, hto⟩ | ⟨hle, hto⟩⟩
      · rw [htip] at hnone
        cases hnone
      · rw [htip] at htip'
        cases htip'
        rw [hlook] at hbest
        cases hbest
        exact ⟨_, _, hto, hself, .inr rfl, hlt.le⟩
      · rw [htip] at htip'
        cases htip'
        exact ⟨_, n, hto, hext _ _ hlook, .inl rfl, le_rfl⟩

/-- **The fork choice after any insertions** is well formed, and the next insertion keeps
what is stored. -/
theorem fork_choice_invariant (hasher : HashPort) (sampler : SamplingPort)
    (config : ChainConfig) (blocks : List Block)
    (hfit : ScoresFit ((new config).insertAll hasher sampler blocks)) :
    WellFormed hasher sampler ((new config).insertAll hasher sampler blocks) ∧
      ∀ block, Keeps hasher sampler ((new config).insertAll hasher sampler blocks) block := by
  have h : Tree hasher sampler ((new config).insertAll hasher sampler blocks) :=
    (Tree.new hasher sampler config).insertAll blocks
  exact ⟨wellFormed_of_tree h hfit, keeps_of_tree h⟩

theorem fork_choice_invariant_two_blocks :
    WellFormed toyHash deterministicSampler
      ((new ⟨1, 1, 0⟩).insertAll toyHash deterministicSampler
        [candidate toyHash ⟨1, 1, 0⟩ ParentContext.genesis 1 0 0,
          candidate toyHash ⟨1, 1, 0⟩ ParentContext.genesis 2 0 0]) :=
  (fork_choice_invariant toyHash deterministicSampler ⟨1, 1, 0⟩
    [candidate toyHash ⟨1, 1, 0⟩ ParentContext.genesis 1 0 0,
      candidate toyHash ⟨1, 1, 0⟩ ParentContext.genesis 2 0 0]
    (scoresFit_of_few _ _ (by decide))).1

end Chesscoin.ForkInvariant

import Chesscoin.Accounting
import Chesscoin.Rounds

/-!
What the reorganisation counter counts.

The node compares four hashes: the head before and after, the block's and its parent's. What it
means to count is a head that was replaced by one that does not follow it. The two agree because
scores grow along a branch: had the old head a descendant above its children, the old head would
not have been the best tip.
-/

namespace Chesscoin.Reorgs

open Chesscoin.Lib.Linked Chesscoin.Domain Chesscoin.Simulator Chesscoin.Validation
  Chesscoin.Mining Chesscoin.ForkChoice Chesscoin.ForkTree Chesscoin.ForkInvariant
  Chesscoin.Wire Chesscoin.Runtime Chesscoin.Runs Chesscoin.ActiveView Chesscoin.LocalMining
  Chesscoin.Overlap Chesscoin.Accounting Chesscoin.Rounds Chesscoin.Adapters
open ForkChoiceState

variable {hasher : HashPort} {sampler : SamplingPort} {addr : AddrText} {B : Block → Prop}
  {fc fc' : ForkChoiceState} {block : Block} {st st' : NodeState}

/-! ### The tree -/

/-- Scores grow along a branch. -/
lemma branch_workScore (h : Tree hasher sampler fc) (hfit : ScoresFit fc) {k : Digest}
    {l : List ForkNode} (hb : Branch Digest.zero ForkNode.parent fc.look k l) {n : ForkNode}
    (hk : fc.look k = some n) : ∀ a ∈ l, a = n ∨ a.workScore < n.workScore := by
  induction hb generalizing n with
  | base hm _ =>
    rw [hk] at hm
    cases hm
    intro a ha
    exact .inl (List.mem_singleton.mp ha)
  | snoc hm hp hl ih =>
    rw [hk] at hm
    cases hm
    intro a ha
    rcases List.mem_append.mp ha with ha | ha
    · rcases parent_fields h hfit hk with ⟨hz, -, -⟩ | ⟨-, p, hlook, -, hscore⟩
      · exact absurd hz hp
      · have hpos := blockWorkScore_pos fc.config.difficultyZeroBits
        rcases ih hlook a ha with rfl | hlt
        · exact .inr (by omega)
        · exact .inr (by omega)
    · exact .inl (List.mem_singleton.mp ha)

/-- **The best tip has no descendants**: a branch that goes through it ends there. -/
lemma tip_ends_branch (h : Tree hasher sampler fc) (hfit : ScoresFit fc) {tip k : Digest}
    {best : ForkNode} (htip : fc.bestTip = some tip) (hlook : fc.look tip = some best)
    {l : List ForkNode} (hb : Branch Digest.zero ForkNode.parent fc.look k l) (hmem : best ∈ l) :
    k = tip := by
  obtain ⟨n, hn⟩ := Option.ne_none_iff_exists'.mp (show fc.look k ≠ none from by
    rw [hb.look_eq]
    simpa using hb.ne_nil)
  have hbest := h.best
  rw [htip] at hbest
  obtain ⟨best', hlook', hmax⟩ := hbest
  rw [hlook] at hlook'
  cases hlook'
  rcases branch_workScore h hfit hb hn best hmem with rfl | hlt
  · rw [← (h.stored k best hn).hash, (h.stored tip best hlook).hash]
  · have hle := hmax k n hn
    rw [rank, rank, Prod.Lex.toLex_le_toLex] at hle
    simp only at hle
    omega

/-- What a new block makes of the best tip: it takes its place, or leaves the tree's view as it
was. -/
lemma insert_view (h : Tree hasher sampler fc)
    (hnonzero : ∀ k n, fc'.look k = some n → k ≠ Digest.zero)
    (hnew : fc.look (blockHash hasher block) = none)
    (hins : fc.insertBlock hasher sampler block = (.ok (blockHash hasher block), fc')) :
    ∃ score, fc'.look (blockHash hasher block) = some (fc.forkNode hasher score block) ∧
      (block.header.previousBlock = Digest.zero ∨
        block.header.previousBlock ≠ Digest.zero ∧
          ∃ p, fc.look block.header.previousBlock = some p) ∧
      (fc'.bestTip = some (blockHash hasher block) ∨
        fc'.bestHash ≠ blockHash hasher block ∧ fc.bestHash = fc'.bestHash ∧
          view fc = view fc') := by
  have htree := h.of_insertBlock hins
  have hext := extends_of_insertBlock hins
  have hconfig := config_of_insertBlock hins
  obtain ⟨ctx, score, hctx, -, -, rfl⟩ := insertBlock_taken hnew hins
  refine ⟨score, addNode_forkNode_look fc score block, ?_, ?_⟩
  · rcases parentContext_ok hctx with ⟨hz, -⟩ | ⟨hz, p, hp, -⟩
    · exact .inl hz
    · exact .inr ⟨hz, p, hp⟩
  rcases addNode_bestTip (fc.forkNode hasher score block) h.best hnew with
    ⟨-, htip⟩ | ⟨tip, best, htip, hlook, ⟨-, htip'⟩ | ⟨-, htip'⟩⟩
  · exact .inl htip
  · exact .inl htip'
  · have hhash : fc.bestHash = (fc.addNode (fc.forkNode hasher score block)).bestHash := by
      rw [bestHash, bestHash, htip, htip']
    refine .inr ⟨?_, hhash, view_eq_of_bestHash h htree hext hconfig hnonzero hhash⟩
    rw [← hhash, bestHash, htip, Option.getD_some]
    rintro rfl
    rw [hnew] at hlook
    cases hlook

/-- A new best tip has the branch of its parent below it. -/
lemma bestChain_of_parent {score : ℕ} (h : Tree hasher sampler fc) (h' : Tree hasher sampler fc')
    (hext : Extends fc.look fc'.look)
    (hself : fc'.look (blockHash hasher block) = some (fc.forkNode hasher score block))
    (hparent : block.header.previousBlock = Digest.zero ∨
      block.header.previousBlock ≠ Digest.zero ∧
        ∃ p, fc.look block.header.previousBlock = some p)
    (htip' : fc'.bestTip = some (blockHash hasher block)) :
    ∃ l, (l = [] ∨ Branch Digest.zero ForkNode.parent fc.look block.header.previousBlock l) ∧
      fc'.bestChain = l.map (·.block) ++ [block] := by
  rcases hparent with hz | ⟨hz, p, hp⟩
  · refine ⟨[], .inl rfl, ?_⟩
    rw [h'.bestChain_eq htip' (.base hself hz)]
    rfl
  · obtain ⟨l, hl⟩ := h.rooted _ p hp
    refine ⟨l, .inr hl, ?_⟩
    rw [h'.bestChain_eq htip' (.snoc hself hz (hl.mono hext)), List.map_append]
    rfl

/-- A branch whose blocks begin with those of another goes through the end of the other. -/
lemma mem_of_prefix (h : Tree hasher sampler fc) {k k' : Digest} {l l' : List ForkNode}
    {n : ForkNode} (hb : Branch Digest.zero ForkNode.parent fc.look k l)
    (hk : fc.look k = some n) (hpre : l.map (·.block) <+: l'.map (·.block))
    (hb' : l' = [] ∨ Branch Digest.zero ForkNode.parent fc.look k' l') : n ∈ l' := by
  have hend : n ∈ l := List.mem_of_getLast? (hb.look_eq.symm.trans hk)
  obtain ⟨m, hm, hblock⟩ := List.mem_map.mp
    (hpre.mem (List.mem_map.mpr ⟨n, hend, rfl⟩))
  rcases hb' with rfl | hb'
  · cases hm
  · obtain ⟨km, hkm⟩ := hb'.stored m hm
    have hkey : km = k := by
      rw [← (h.stored km m hkm).keyed, hblock, (h.stored k n hk).keyed]
    rw [hkey, hk, Option.some.injEq] at hkm
    rwa [hkm]

/-- **The chain is replaced by one it is a prefix of** exactly when the head stays or the new
head follows it. -/
theorem bestChain_prefix_iff (h : Tree hasher sampler fc) (hfit : ScoresFit fc)
    (hnonzero : ∀ k n, fc'.look k = some n → k ≠ Digest.zero)
    (hnew : fc.look (blockHash hasher block) = none)
    (hins : fc.insertBlock hasher sampler block = (.ok (blockHash hasher block), fc')) :
    fc.bestChain <+: fc'.bestChain ↔
      fc.bestHash = Digest.zero ∨ block.header.previousBlock = fc.bestHash ∨
        fc'.bestHash ≠ blockHash hasher block := by
  have htree := h.of_insertBlock hins
  have hext := extends_of_insertBlock hins
  have hzero : ∀ k n, fc.look k = some n → k ≠ Digest.zero := fun k n hk =>
    hnonzero k n (hext k n hk)
  obtain ⟨score, hself, hparent, htip' | ⟨hne, -, hview⟩⟩ := insert_view h hnonzero hnew hins
  · have hhash : fc'.bestHash = blockHash hasher block := by
      rw [bestHash, htip', Option.getD_some]
    rcases h.walkBestChain with ⟨htip, -⟩ | ⟨tip, best, l, htip, hlook, hb, -⟩
    · rw [Tree.bestChain_nil htip, bestHash, htip]
      exact ⟨fun _ => .inl rfl, fun _ => List.nil_prefix⟩
    · have hold : fc.bestHash = tip := by rw [bestHash, htip, Option.getD_some]
      rw [hold, hhash]
      constructor
      · intro hpre
        have hlast := branch_last h hb
        obtain ⟨l', hl', hchain⟩ := bestChain_of_parent h htree hext hself hparent htip'
        rw [h.bestChain_eq htip hb, hchain] at hpre
        rcases List.prefix_concat_iff.mp hpre with heq | hpre
        · -- the last block of the branch would be the new one
          rw [heq, List.getLast?_concat, Option.map_some, Option.some.injEq] at hlast
          rw [← hlast, hnew] at hlook
          cases hlook
        · have hmem : best ∈ l' := mem_of_prefix h hb hlook hpre hl'
          rcases hl' with rfl | hl'
          · cases hmem
          · exact .inr (.inl (tip_ends_branch h hfit htip hlook hl' hmem))
      · rintro (hz | hparent | hne)
        · exact absurd hz (hzero tip best hlook)
        · rw [bestChain_child h htree hext hzero hself htip' (hparent.trans hold.symm)]
          exact List.prefix_append _ _
        · exact absurd rfl hne
  · refine ⟨fun _ => .inr (.inr hne), fun _ => ?_⟩
    have hchain : fc.bestChain = fc'.bestChain := congrArg ChainState.blocks hview
    rw [hchain]

/-! ### The counter -/

lemma persistBlock_reorgs (block : Block) (st : NodeState) :
    (persistBlock hasher block st).reorgs = st.reorgs := by
  unfold persistBlock
  split <;> rfl

lemma countAccepted_reorgs (source : BlockSource) (st : NodeState) :
    (countAccepted source st).reorgs = st.reorgs := by
  cases source <;> rfl

/-- What the counter does when a new block is taken in. -/
lemma applyIncomingBlock_reorgs (h : Active hasher sampler B st)
    (hnonzero : ∀ b, B b → blockHash hasher b ≠ Digest.zero) (hB : B block)
    (source : BlockSource) (hnew : st.forkChoice.look (blockHash hasher block) = none)
    (hins : st.forkChoice.insertBlock hasher sampler block =
      (.ok (blockHash hasher block), fc')) :
    (applyIncomingBlock hasher sampler block source st).2.reorgs =
      if st.forkChoice.bestHash ≠ Digest.zero ∧
          block.header.previousBlock ≠ st.forkChoice.bestHash ∧
          fc'.bestHash = blockHash hasher block then st.reorgs + 1 else st.reorgs := by
  have htree := h.tree.of_insertBlock hins
  let st₁ := persistBlock hasher block { st with forkChoice := fc' }
  have hchain₁ : st₁.chain = st.chain := persistBlock_chain block _
  have hfc₁ : st₁.forkChoice = fc' := persistBlock_forkChoice block _
  obtain ⟨changed, hact⟩ := h.activates st₁ hnonzero hB hchain₁ (by rw [hfc₁, hins])
  have hhead : st.chain.headHash hasher = st.forkChoice.bestHash := by
    rw [h.chain]
    exact view_headHash h.tree
  have hhead' : (view st₁.forkChoice).headHash hasher = fc'.bestHash := by
    rw [hfc₁]
    exact view_headHash htree
  rw [applyIncomingBlock_new source hnew hins, hact, countAccepted_reorgs, countReorg]
  simp only [Except.isOk, Except.toBool, hhead, hhead', true_and]
  split
  · exact congrArg (· + 1) (persistBlock_reorgs block _)
  · exact persistBlock_reorgs block _

lemma chain_prefix_iff (h : Active hasher sampler B st) (h' : Active hasher sampler B st')
    (hnonzero : ∀ b, B b → blockHash hasher b ≠ Digest.zero) (hfit : ScoresFit st.forkChoice)
    (hnew : st.forkChoice.look (blockHash hasher block) = none)
    (hins : st.forkChoice.insertBlock hasher sampler block =
      (.ok (blockHash hasher block), st'.forkChoice)) :
    st.chain.blocks <+: st'.chain.blocks ↔
      st.forkChoice.bestHash = Digest.zero ∨
        block.header.previousBlock = st.forkChoice.bestHash ∨
        st'.forkChoice.bestHash ≠ blockHash hasher block := by
  rw [h.chain, h'.chain]
  exact bestChain_prefix_iff h.tree hfit
    (fun k n hk => known_nonzero h'.tree h'.known hnonzero hk) hnew hins

/-- **The reorganisation counter is exact.** An incoming block raises it by one when the active
chain was not empty and is not a prefix of the active chain afterwards, and leaves it alone
otherwise; and mining never replaces the chain by one it is not a prefix of. -/
theorem reorgs_exact (hasher : HashPort) (sampler : SamplingPort) (addr : AddrText)
    (B : Block → Prop) (hown : OwnHashes hasher B) (st : NodeState)
    (hreach : Reachable hasher sampler addr B st) (hfit : ScoresFit st.forkChoice) :
    (∀ block source, B block →
      (applyIncomingBlock hasher sampler block source st).2.reorgs = st.reorgs +
        if st.chain.blocks ≠ [] ∧ ¬ st.chain.blocks <+:
          (applyIncomingBlock hasher sampler block source st).2.chain.blocks then 1 else 0) ∧
      ∀ trainingSeed samplingEntropy block st', B block →
        mineOnce hasher sampler trainingSeed samplingEntropy st = some (.ok (st', block)) →
        st.chain.blocks <+: st'.chain.blocks := by
  have h := Reachable.active hreach hown.nonzero
  constructor
  · intro block source hB
    have hafter := h.move hown.nonzero (applyIncomingBlock_move hasher sampler hB source st)
    rcases applyIncomingBlock_cases hasher sampler block source st with
      ⟨-, hr⟩ | ⟨e, -, hr⟩ | ⟨st', hnew, hins, -, -, hr⟩
    · rw [hr, if_neg fun hc => hc.2 List.prefix_rfl]
      rfl
    · obtain ⟨hchain, -, -⟩ := countRejected_frame source st
      rw [hr, hchain, if_neg fun hc => hc.2 List.prefix_rfl]
      cases source <;> rfl
    · rw [hr] at hafter
      have hpre := chain_prefix_iff h hafter hown.nonzero hfit hnew hins
      have hreorgs := applyIncomingBlock_reorgs h hown.nonzero hB source hnew hins
      rw [hr] at hreorgs ⊢
      rw [hreorgs]
      by_cases hp : st.chain.blocks <+: st'.chain.blocks
      · have hno : ¬(st.forkChoice.bestHash ≠ Digest.zero ∧
            block.header.previousBlock ≠ st.forkChoice.bestHash ∧
            st'.forkChoice.bestHash = blockHash hasher block) := by
          rintro ⟨hz, hparent, hhead⟩
          rcases hpre.mp hp with hz' | hparent' | hhead'
          · exact hz hz'
          · exact hparent hparent'
          · exact hhead' hhead
        rw [if_neg hno, if_neg fun hc => hc.2 hp]
        rfl
      · have hne : st.chain.blocks ≠ [] := fun hnil => hp (by rw [hnil]; exact List.nil_prefix)
        obtain ⟨hz, hparent, hhead⟩ := by
          simpa only [not_or, ne_eq, not_not] using mt hpre.mpr hp
        rw [if_pos ⟨hz, hparent, hhead⟩, if_pos ⟨hne, hp⟩]
  · intro trainingSeed samplingEntropy block st' hB hmine
    obtain ⟨hmined, hins, -⟩ := mineOnce_counts hmine
    have hnew := mined_new h.tree hfit h.known hown.nonzero hown.distinct hB hmined
    have hafter := h.move hown.nonzero (mineOnce_move hmine hB)
    exact (chain_prefix_iff h hafter hown.nonzero hfit hnew hins).mpr
      (.inr (.inl (mined_previousBlock hmined)))

/-- The left block is the head, and the right one next to it has no child yet. -/
def forked : NodeState := kinNode 128 32 [trunk, left, right]

lemma forked_facts : forked.chain.blocks = [trunk, left] ∧ forked.reorgs = 0 ∧
    forked.forkChoice.knownBlockCount *
      configuredBlockWorkScore forked.forkChoice.config.difficultyZeroBits < 2 ^ 128 ∧
    (applyIncomingBlock toyHash deterministicSampler rightLeaf .gossip forked).2.chain.blocks =
      [trunk, right, rightLeaf] := by
  decide +kernel

theorem reorgs_exact_forked :
    (applyIncomingBlock toyHash deterministicSampler rightLeaf .gossip forked).2.reorgs = 1 := by
  obtain ⟨hchain, hreorgs, hcount, hafter⟩ := forked_facts
  have hreach : Reachable toyHash deterministicSampler noAddr (· ∈ kin) forked :=
    kinNode_reachable (by simp [kin])
  have hactive : Active toyHash deterministicSampler (· ∈ kin) forked :=
    kinNode_active (by simp [kin])
  have h := (reorgs_exact toyHash deterministicSampler noAddr (· ∈ kin) kin_own forked hreach
    (scoresFit_of_count hactive.tree hcount)).1 rightLeaf .gossip (by simp [kin])
  have hmoved : ¬[trunk, left] <+: [trunk, right, rightLeaf] := by decide +kernel
  rw [hchain, hafter, if_pos ⟨by simp, hmoved⟩, hreorgs] at h
  exact h

end Chesscoin.Reorgs

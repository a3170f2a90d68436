import Chesscoin.Agreement
import Chesscoin.LocalMining

/-!
The chain and the fork choice as two implementations of one thing.

What is mined next, and what may come next, is worked out twice: from a list of blocks by its
last block and its length, and from a tree of blocks by the node of its best tip. On the best
chain of the tree the two agree, and they go on agreeing as blocks are put on top of it.
-/

namespace Chesscoin.LinearView

open Chesscoin.Lib.Linked Chesscoin.Domain Chesscoin.Simulator Chesscoin.Validation
  Chesscoin.Mining Chesscoin.ForkChoice Chesscoin.ForkTree Chesscoin.ForkInvariant
  Chesscoin.ActiveView Chesscoin.Agreement Chesscoin.LocalMining Chesscoin.Adapters
open ForkChoiceState

variable {hasher : HashPort} {sampler : SamplingPort} {fc : ForkChoiceState} {block : Block}

/-- **Mining** on the view is mining on the tree. -/
theorem view_mineNextBlock (h : Tree hasher sampler fc) (trainingSeed samplingEntropy : UInt64) :
    (view fc).mineNextBlock hasher trainingSeed samplingEntropy =
      fc.mineNextBlock hasher trainingSeed samplingEntropy := by
  rw [ChainState.mineNextBlock, view_headContext h, ForkChoiceState.mineNextBlock]
  rfl

/-- **One step of the simulation**: a new block on the best tip is taken or refused by both,
for the same reason. -/
theorem insertBlock_view (h : Tree hasher sampler fc)
    (hnonzero : ∀ k n, fc.look k = some n → k ≠ Digest.zero)
    (hnew : fc.containsBlock (blockHash hasher block) = false)
    (hparent : block.header.previousBlock = fc.bestHash) :
    (∃ e, fc.insertBlock hasher sampler block = (.error (.invalidBlock e), fc) ∧
        (view fc).applyBlock hasher sampler block = (.error e, view fc)) ∨
      ∃ score, fc.parentContext block = .ok (fc.bestContext, score) ∧
        fc.insertBlock hasher sampler block =
          (.ok (blockHash hasher block), fc.addNode (fc.forkNode hasher score block)) ∧
        (view fc).applyBlock hasher sampler block =
          (.ok (blockHash hasher block), ⟨fc.config, fc.bestChain ++ [block]⟩) := by
  obtain ⟨score, hctx⟩ := parentContext_bestHash h hnonzero hparent
  have hvalidate : (view fc).validateNextBlock hasher sampler block =
      validateBlockAfter hasher sampler fc.config fc.bestContext block := by
    rw [ChainState.validateNextBlock, view_headContext h]
    rfl
  cases hv : validateBlockAfter hasher sampler fc.config fc.bestContext block with
  | error e =>
    refine .inl ⟨e, ?_, ?_⟩
    · simp [ForkChoiceState.insertBlock, hnew, hctx, hv]
    · simp [ChainState.applyBlock, hvalidate, hv]
  | ok _ =>
    refine .inr ⟨score, hctx, ?_, ?_⟩
    · simp [ForkChoiceState.insertBlock, hnew, hctx, hv]
    · rw [ChainState.applyBlock, hvalidate, hv]
      rfl

/-- The block that was taken is on top of both. -/
lemma view_insertBlock (h : Tree hasher sampler fc)
    (hnonzero : ∀ k n, fc.look k = some n → k ≠ Digest.zero)
    (hnew : fc.containsBlock (blockHash hasher block) = false)
    (hparent : block.header.previousBlock = fc.bestHash) {score : ℕ}
    (hctx : fc.parentContext block = .ok (fc.bestContext, score))
    (hins : fc.insertBlock hasher sampler block =
      (.ok (blockHash hasher block), fc.addNode (fc.forkNode hasher score block)))
    (hfit : ScoresFit (fc.insertBlock hasher sampler block).2) :
    view (fc.insertBlock hasher sampler block).2 = ⟨fc.config, fc.bestChain ++ [block]⟩ := by
  have htree := h.insertBlock block
  have hext := extends_of_insertBlock hins
  have hconfig := config_of_insertBlock hins
  have hlook := (not_containsBlock_iff _).mp hnew
  rw [hins] at hfit htree ⊢
  have hself : (fc.addNode (fc.forkNode hasher score block)).look (blockHash hasher block) =
      some (fc.forkNode hasher score block) := addNode_forkNode_look fc score block
  have htip := addNode_child h hctx hparent hnonzero hlook
    (score_fits hext hconfig hself hctx hfit)
  rw [view, bestChain_child h htree hext hnonzero hself htip hparent, hconfig]

/-- **The linear chain and the fork choice agree.** Whatever has been inserted, the best chain
can be replayed block by block; both mine the same block on top; both take or refuse the same
blocks there, for the same reasons; and what they come to is again a tree and its view. -/
theorem linear_view_agrees (hasher : HashPort) (sampler : SamplingPort) (config : ChainConfig)
    (blocks : List Block) (fc : ForkChoiceState)
    (hreach : fc = (new config).insertAll hasher sampler blocks)
    (hnonzero : ∀ b ∈ blocks, blockHash hasher b ≠ Digest.zero) :
    ∃ chain, chainFromBlocks hasher sampler config fc.bestChain = .ok chain ∧
      (∀ trainingSeed samplingEntropy,
        chain.mineNextBlock hasher trainingSeed samplingEntropy =
          fc.mineNextBlock hasher trainingSeed samplingEntropy) ∧
      ∀ b, fc.containsBlock (blockHash hasher b) = false →
        b.header.previousBlock = fc.bestHash →
        (fc.insertBlock hasher sampler b).1 =
            (chain.applyBlock hasher sampler b).1.mapError .invalidBlock ∧
          ((chain.applyBlock hasher sampler b).1.isOk →
            ScoresFit (fc.insertBlock hasher sampler b).2 →
            chainFromBlocks hasher sampler config (fc.insertBlock hasher sampler b).2.bestChain =
              .ok (chain.applyBlock hasher sampler b).2) := by
  have hgrown : Grown hasher sampler config (· ∈ blocks) fc := by
    rw [hreach]
    exact Grown.insertAll ⟨Tree.new hasher sampler config, rfl, known_new config⟩ fun _ hb => hb
  have h := hgrown.tree
  have hzero := fun k n (hk : fc.look k = some n) => known_nonzero h hgrown.known hnonzero hk
  have hconfig := hgrown.config_eq
  refine ⟨view fc, ?_, view_mineNextBlock h, fun b hnew hparent => ?_⟩
  · rw [← hconfig]
    exact chainFromBlocks_bestChain h
  · rcases insertBlock_view h hzero hnew hparent with ⟨e, hins, happ⟩ | ⟨score, hctx, hins, happ⟩
    · rw [hins, happ]
      exact ⟨rfl, fun hok => nomatch hok⟩
    · refine ⟨by rw [hins, happ]; rfl, fun _ hfit => ?_⟩
      have hview := view_insertBlock h hzero hnew hparent hctx hins hfit
      have hreplay := chainFromBlocks_bestChain (h.insertBlock b)
      rw [insertBlock_config, hconfig, hview] at hreplay
      rw [hreplay, happ]

theorem linear_view_agrees_one_block :
    ∃ chain, chainFromBlocks toyHash deterministicSampler ⟨1, 1, 0⟩
        ((new ⟨1, 1, 0⟩).insertAll toyHash deterministicSampler
          [candidate toyHash ⟨1, 1, 0⟩ ParentContext.genesis 1 0 0]).bestChain = .ok chain ∧
      chain.mineNextBlock toyHash 2 0 =
        ((new ⟨1, 1, 0⟩).insertAll toyHash deterministicSampler
          [candidate toyHash ⟨1, 1, 0⟩ ParentContext.genesis 1 0 0]).mineNextBlock toyHash 2 0 := by
  have hnonzero : ∀ b ∈ [candidate toyHash ⟨1, 1, 0⟩ ParentContext.genesis 1 0 0],
      blockHash toyHash b ≠ Digest.zero := by
    decide +kernel
  obtain ⟨chain, hreplay, hmine, -⟩ := linear_view_agrees toyHash deterministicSampler ⟨1, 1, 0⟩
    [candidate toyHash ⟨1, 1, 0⟩ ParentContext.genesis 1 0 0] _ rfl hnonzero
  exact ⟨chain, hreplay, hmine 2 0⟩

end Chesscoin.LinearView

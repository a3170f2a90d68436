import Chesscoin.ActiveView
import Chesscoin.HonestTrace

/-!
Mining on the node's own best tip.

What is mined is valid where it was mined, stands on the best tip, and is new: a child of the
best tip would be a better tip. So the block is stored, becomes the best tip and lengthens the
active chain by one, and mining never meets the errors it does not expect.
-/

namespace Chesscoin.LocalMining

open Chesscoin.Lib.Linked Chesscoin.Domain Chesscoin.Simulator Chesscoin.Validation
  Chesscoin.Mining Chesscoin.ForkChoice Chesscoin.ForkTree Chesscoin.ForkInvariant
  Chesscoin.Wire Chesscoin.Runtime Chesscoin.Runs Chesscoin.ActiveView Chesscoin.HonestTrace
  Chesscoin.Adapters
open ForkChoiceState

variable {hasher : HashPort} {sampler : SamplingPort} {addr : AddrText} {B : Block → Prop}
  {fc : ForkChoiceState} {block : Block} {trainingSeed samplingEntropy : UInt64}

/-! ### The block and its parent -/

lemma mined_previousBlock
    (hmined : fc.mineNextBlock hasher trainingSeed samplingEntropy = some block) :
    block.header.previousBlock = fc.bestHash := by
  obtain ⟨nonce, rfl, -⟩ := mineAfter_eq_some hasher hmined
  rfl

/-- A block that names the best tip is validated in the context of the best tip. -/
lemma parentContext_bestHash (h : Tree hasher sampler fc)
    (hnonzero : ∀ k n, fc.look k = some n → k ≠ Digest.zero)
    (hprevious : block.header.previousBlock = fc.bestHash) :
    ∃ score, fc.parentContext block = .ok (fc.bestContext, score) := by
  have hbest := h.best
  cases htip : fc.bestTip with
  | none =>
    have hz : block.header.previousBlock = Digest.zero := by
      rw [hprevious, ForkChoiceState.bestHash, htip]
      rfl
    refine ⟨0, ?_⟩
    rw [ForkChoiceState.parentContext, if_pos hz]
    simp only [ForkChoiceState.bestContext, ForkChoiceState.bestHeight, ForkChoiceState.bestHash,
      ForkChoiceState.bestModel, htip]
    rfl
  | some tip =>
    rw [htip] at hbest
    obtain ⟨best, hlook, -⟩ := hbest
    have hroot : block.header.previousBlock = tip := by
      rw [hprevious, ForkChoiceState.bestHash, htip]
      rfl
    refine ⟨best.workScore, ?_⟩
    rw [ForkChoiceState.parentContext, hroot, if_neg (hnonzero tip best hlook), hlook]
    simp only [ForkChoiceState.bestContext, ForkChoiceState.bestHeight, ForkChoiceState.bestHash,
      ForkChoiceState.bestModel, htip, Option.bind_some, hlook, (h.stored tip best hlook).hash]
    rfl

/-- What is mined is accepted, whatever the scores are. -/
lemma mined_accepted (h : Tree hasher sampler fc) (hrange : sampler.InRange)
    (hnonzero : ∀ k n, fc.look k = some n → k ≠ Digest.zero)
    (hmined : fc.mineNextBlock hasher trainingSeed samplingEntropy = some block) :
    ∃ fc', fc.insertBlock hasher sampler block = (.ok (blockHash hasher block), fc') := by
  obtain ⟨score, hctx⟩ := parentContext_bestHash h hnonzero (mined_previousBlock hmined)
  have hvalid := valid_of_mined hasher sampler hrange hmined
  rcases insertBlock_cases hasher sampler fc block with
    ⟨-, hr⟩ | ⟨e, -, hrefused, -⟩ | ⟨ctx, score, -, -, -, hr⟩
  · exact ⟨_, hr⟩
  · exact absurd hvalid (hrefused _ _ hctx)
  · exact ⟨_, hr⟩

/-- **The best tip has no child**, so what is mined on it is not known. -/
theorem mined_new {fc : ForkChoiceState} {block : Block} {trainingSeed samplingEntropy : UInt64}
    (h : Tree hasher sampler fc) (hfit : ScoresFit fc)
    (hknown : ∀ k n, fc.look k = some n → B n.block)
    (hnonzero : ∀ b, B b → blockHash hasher b ≠ Digest.zero)
    (hdistinct : ∀ b b', B b → B b' → blockHash hasher b = blockHash hasher b' →
      b.header = b'.header) (hB : B block)
    (hmined : fc.mineNextBlock hasher trainingSeed samplingEntropy = some block) :
    fc.look (blockHash hasher block) = none := by
  cases hk : fc.look (blockHash hasher block) with
  | none => rfl
  | some n =>
    exfalso
    have hs := h.stored _ n hk
    have hheader : n.block.header = block.header := hdistinct _ _ (hknown _ n hk) hB hs.keyed
    have hparent : n.parent = fc.bestHash := by
      rw [hs.parent, hheader, mined_previousBlock hmined]
    have hbest := h.best
    cases htip : fc.bestTip with
    | none =>
      rw [htip] at hbest
      rw [hbest] at hk
      cases hk
    | some tip =>
      rw [htip] at hbest
      obtain ⟨best, hlook, hmax⟩ := hbest
      have hroot : n.parent = tip := by rw [hparent, ForkChoiceState.bestHash, htip]; rfl
      rcases parent_fields h hfit hk with ⟨hz, -, -⟩ | ⟨-, p, hp, -, hscore⟩
      · exact known_nonzero h hknown hnonzero hlook (hroot.symm.trans hz)
      · rw [hroot, hlook, Option.some.injEq] at hp
        subst hp
        have hle := hmax _ n hk
        have hpos := blockWorkScore_pos fc.config.difficultyZeroBits
        rw [rank, rank, Prod.Lex.toLex_le_toLex] at hle
        simp only at hle
        omega

/-! ### The block in the fork choice -/

/-- A child of the best tip is a better tip, when its score has not wrapped around. -/
lemma addNode_child (h : Tree hasher sampler fc) {score : ℕ}
    (hctx : fc.parentContext block = .ok (fc.bestContext, score))
    (hparent : block.header.previousBlock = fc.bestHash)
    (hnonzero : ∀ k n, fc.look k = some n → k ≠ Digest.zero)
    (hnew : fc.look (blockHash hasher block) = none)
    (hfit : score + configuredBlockWorkScore fc.config.difficultyZeroBits < 2 ^ 128) :
    (fc.addNode (fc.forkNode hasher score block)).bestTip = some (blockHash hasher block) := by
  rcases addNode_bestTip (fc.forkNode hasher score block) h.best hnew with
    ⟨-, htip⟩ | ⟨tip, best, htip, hlook, ⟨-, htip'⟩ | ⟨hle, -⟩⟩
  · exact htip
  · exact htip'
  · have hroot : block.header.previousBlock = tip := by
      rw [hparent, ForkChoiceState.bestHash, htip]
      rfl
    rcases parentContext_ok hctx with ⟨hz, -, -⟩ | ⟨-, p, hp, -, rfl⟩
    · exact absurd (hroot.symm.trans hz) (hnonzero tip best hlook)
    · rw [hroot, hlook, Option.some.injEq] at hp
      subst hp
      have hscore : (fc.forkNode hasher best.workScore block).workScore =
          best.workScore + configuredBlockWorkScore fc.config.difficultyZeroBits :=
        Nat.mod_eq_of_lt hfit
      have hpos := blockWorkScore_pos fc.config.difficultyZeroBits
      rw [rank, rank, Prod.Lex.toLex_le_toLex, hscore] at hle
      simp only at hle
      omega

/-- The score of a stored block has not wrapped around when the scores of its tree fit. -/
lemma score_fits {fc' : ForkChoiceState} {ctx : ParentContext} {score : ℕ}
    (hext : Extends fc.look fc'.look) (hconfig : fc'.config = fc.config)
    (hself : fc'.look (blockHash hasher block) = some (fc.forkNode hasher score block))
    (hctx : fc.parentContext block = .ok (ctx, score)) (hfit : ScoresFit fc') :
    score + configuredBlockWorkScore fc.config.difficultyZeroBits < 2 ^ 128 := by
  rcases parentContext_ok hctx with ⟨-, -, rfl⟩ | ⟨hz, p, hp, -, rfl⟩
  · rw [Nat.zero_add]
    exact blockWorkScore_lt _
  · rw [← hconfig]
    exact hfit _ _ p hself hz (hext _ _ hp)

/-- A best tip that is a child of the best tip there was lengthens the best chain. -/
lemma bestChain_child {fc' : ForkChoiceState} {score : ℕ} (h : Tree hasher sampler fc)
    (h' : Tree hasher sampler fc') (hext : Extends fc.look fc'.look)
    (hnonzero : ∀ k n, fc.look k = some n → k ≠ Digest.zero)
    (hself : fc'.look (blockHash hasher block) = some (fc.forkNode hasher score block))
    (htip' : fc'.bestTip = some (blockHash hasher block))
    (hparent : block.header.previousBlock = fc.bestHash) :
    fc'.bestChain = fc.bestChain ++ [block] := by
  rcases h.walkBestChain with ⟨htip, -⟩ | ⟨tip, n, l, htip, hlook, hb, -⟩
  · have hroot : block.header.previousBlock = Digest.zero := by
      rw [hparent, ForkChoiceState.bestHash, htip]
      rfl
    rw [h'.bestChain_eq htip' (.base hself hroot), Tree.bestChain_nil htip]
    rfl
  · have hroot : block.header.previousBlock = tip := by
      rw [hparent, ForkChoiceState.bestHash, htip]
      rfl
    have hb' : Branch Digest.zero ForkNode.parent fc'.look block.header.previousBlock l := by
      rw [hroot]
      exact hb.mono hext
    have hne : block.header.previousBlock ≠ Digest.zero := by
      rw [hroot]
      exact hnonzero tip n hlook
    rw [h'.bestChain_eq htip' (.snoc hself hne hb'), h.bestChain_eq htip hb, List.map_append]
    rfl

/-- **Mining and inserting** what was mined: the block is new and accepted, and it becomes the
best tip, on top of the best chain there was. -/
theorem mined_inserted (h : Tree hasher sampler fc) (hrange : sampler.InRange)
    (hknown : ∀ k n, fc.look k = some n → B n.block)
    (hnonzero : ∀ b, B b → blockHash hasher b ≠ Digest.zero)
    (hdistinct : ∀ b b', B b → B b' → blockHash hasher b = blockHash hasher b' →
      b.header = b'.header) (hB : B block)
    (hfit : ScoresFit (fc.insertBlock hasher sampler block).2)
    (hmined : fc.mineNextBlock hasher trainingSeed samplingEntropy = some block) :
    ∃ fc', fc.look (blockHash hasher block) = none ∧
      fc.insertBlock hasher sampler block = (.ok (blockHash hasher block), fc') ∧
      fc'.bestTip = some (blockHash hasher block) ∧ fc'.bestChain = fc.bestChain ++ [block] := by
  have hext := insertBlock_extends hasher sampler fc block
  have hconfig := insertBlock_config hasher sampler fc block
  have htree' := h.insertBlock block
  have hzero : ∀ k n, fc.look k = some n → k ≠ Digest.zero := fun k n hk =>
    known_nonzero h hknown hnonzero hk
  have hnew := mined_new h (scoresFit_mono hext hconfig hfit) hknown hnonzero hdistinct hB hmined
  have hparent := mined_previousBlock hmined
  obtain ⟨score, hctx⟩ := parentContext_bestHash h hzero hparent
  have hins := insertBlock_valid hnew hctx (valid_of_mined hasher sampler hrange hmined)
  rw [hins] at hext hconfig htree' hfit
  simp only at hext hconfig htree' hfit
  have hself : (fc.addNode (fc.forkNode hasher score block)).look (blockHash hasher block) =
      some (fc.forkNode hasher score block) := addNode_forkNode_look fc score block
  have hscore := score_fits hext hconfig hself hctx hfit
  have htip' := addNode_child h hctx hparent hzero hnew hscore
  exact ⟨_, hnew, hins, htip', bestChain_child h htree' hext hzero hself htip' hparent⟩

/-! ### The node -/

/-- Mining does not panic: the block is accepted and the chain can be activated. -/
lemma mineOnce_succeeds {st : NodeState} (h : Active hasher sampler B st)
    (hrange : sampler.InRange) (hnonzero : ∀ b, B b → blockHash hasher b ≠ Digest.zero)
    (hB : B block)
    (hmined : st.forkChoice.mineNextBlock hasher trainingSeed samplingEntropy = some block) :
    ∃ st', mineOnce hasher sampler trainingSeed samplingEntropy st = some (.ok (st', block)) ∧
      st'.forkChoice = (st.forkChoice.insertBlock hasher sampler block).2 ∧
      st'.chain = view st'.forkChoice := by
  obtain ⟨fc', hins⟩ := mined_accepted h.tree hrange
    (fun k n hk => known_nonzero h.tree h.known hnonzero hk) hmined
  have hfc : fc' = (st.forkChoice.insertBlock hasher sampler block).2 := by rw [hins]
  obtain ⟨changed, hact⟩ := h.activates { st with forkChoice := fc' } hnonzero hB rfl hfc
  let st₁ := persistBlock hasher block { st with forkChoice := fc', chain := view fc' }
  have hmine : mineOnce hasher sampler trainingSeed samplingEntropy st =
      some (.ok ({ st₁ with minedBlocks := st₁.minedBlocks + 1 }, block)) := by
    unfold mineOnce
    simp only [hmined, hins, hact]
    rfl
  have hfc₁ : st₁.forkChoice = fc' := persistBlock_forkChoice block _
  have hchain₁ : st₁.chain = view fc' := persistBlock_chain block _
  exact ⟨_, hmine, hfc₁.trans hfc, hchain₁.trans (by rw [← hfc₁])⟩

/-- **Local mining extends the head.** In every state a node can come to, a block that is
mined is new, it is accepted and the chain is activated, so that mining does not panic; the
block becomes the best tip and the head of the active chain, which is one block longer. -/
theorem mine_once_extends_head {st : NodeState} (hasher : HashPort) (addr : AddrText)
    (B : Block → Prop) (hnonzero : ∀ b, B b → blockHash hasher b ≠ Digest.zero)
    (hdistinct : ∀ b b', B b → B b' → blockHash hasher b = blockHash hasher b' →
      b.header = b'.header)
    (hreach : Reachable hasher deterministicSampler addr B st)
    (trainingSeed samplingEntropy : UInt64) (block : Block) (hB : B block)
    (hfit : ScoresFit (st.forkChoice.insertBlock hasher deterministicSampler block).2)
    (hmined : st.forkChoice.mineNextBlock hasher trainingSeed samplingEntropy = some block) :
    st.forkChoice.containsBlock (blockHash hasher block) = false ∧
      (st.forkChoice.insertBlock hasher deterministicSampler block).1 =
        .ok (blockHash hasher block) ∧
      ∃ st', mineOnce hasher deterministicSampler trainingSeed samplingEntropy st =
          some (.ok (st', block)) ∧
        st'.forkChoice.bestTip = some (blockHash hasher block) ∧
        st'.chain.headHash hasher = blockHash hasher block ∧
        st'.chain.blocks = st.chain.blocks ++ [block] ∧
        st'.chain.height = st.chain.height + 1 := by
  have h := Reachable.active hreach hnonzero
  obtain ⟨fc', hnew, hins, htip, hchain⟩ := mined_inserted h.tree deterministicSampler_inRange
    h.known hnonzero hdistinct hB hfit hmined
  obtain ⟨st', hmine, hfc, hview⟩ :=
    mineOnce_succeeds h deterministicSampler_inRange hnonzero hB hmined
  rw [hins] at hfc
  have hblocks : st'.chain.blocks = st.chain.blocks ++ [block] := by
    rw [hview, hfc, h.chain]
    exact hchain
  refine ⟨(not_containsBlock_iff _).mpr hnew, by rw [hins], st', hmine, ?_, ?_, hblocks, ?_⟩
  · rw [hfc, htip]
  · rw [ChainState.headHash, hblocks]
    simp
  · rw [ChainState.height, hblocks]
    simp [ChainState.height]

/-! A node that has heard of a first block and mines the next one. -/

def heardBlock : Block := candidate toyHash ⟨1, 1, 0⟩ ParentContext.genesis 1 0 0

def heardRun : BlockApplication × NodeState :=
  applyIncomingBlock toyHash deterministicSampler heardBlock .gossip (freshNode ⟨1, 1, 0⟩ none)

def nextBlock : Block :=
  candidate toyHash ⟨1, 1, 0⟩ ⟨1, blockHash toyHash heardBlock, heardBlock.header.modelAfter⟩ 2 0 0

lemma heardRun_mines :
    heardRun.2.forkChoice.mineNextBlock toyHash 2 0 = some nextBlock := by
  have hconfig : heardRun.2.forkChoice.config = ⟨1, 1, 0⟩ := by decide +kernel
  have hcontext : heardRun.2.forkChoice.bestContext =
      ⟨1, blockHash toyHash heardBlock, heardBlock.header.modelAfter⟩ := by decide +kernel
  rw [ForkChoiceState.mineNextBlock, hconfig, hcontext]
  exact mineAfter_of_difficulty_zero toyHash rfl _ 2 0

theorem mine_once_extends_head_next :
    ∃ st', mineOnce toyHash deterministicSampler 2 0 heardRun.2 = some (.ok (st', nextBlock)) ∧
      st'.chain.blocks = [heardBlock, nextBlock] := by
  have hnonzero : ∀ b, b = heardBlock ∨ b = nextBlock → blockHash toyHash b ≠ Digest.zero := by
    rintro b (rfl | rfl)
    · decide +kernel
    · decide +kernel
  have hdistinct : ∀ b b', b = heardBlock ∨ b = nextBlock → b' = heardBlock ∨ b' = nextBlock →
      blockHash toyHash b = blockHash toyHash b' → b.header = b'.header := by
    have hne : blockHash toyHash heardBlock ≠ blockHash toyHash nextBlock := by decide +kernel
    rintro b b' (rfl | rfl) (rfl | rfl) hhash
    · rfl
    · exact absurd hhash hne
    · exact absurd hhash.symm hne
    · rfl
  have hreach : Reachable toyHash deterministicSampler ⟨fun _ => [], fun _ => none⟩
      (fun b => b = heardBlock ∨ b = nextBlock) heardRun.2 :=
    ⟨_, freshNode_start _, .single (.incoming heardBlock .gossip (.inl rfl))⟩
  have htree := (Reachable.active hreach hnonzero).tree.insertBlock nextBlock
  have hchain : heardRun.2.chain.blocks = [heardBlock] := by decide +kernel
  obtain ⟨-, -, st', hmine, -, -, hblocks, -⟩ := mine_once_extends_head toyHash
    ⟨fun _ => [], fun _ => none⟩ (fun b => b = heardBlock ∨ b = nextBlock) hnonzero hdistinct
    hreach 2 0 nextBlock (.inr rfl) (scoresFit_of_count htree (by decide +kernel)) heardRun_mines
  exact ⟨st', hmine, by rw [hblocks, hchain]; rfl⟩

end Chesscoin.LocalMining

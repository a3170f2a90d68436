import Mathlib.Data.Prod.Lex
import Chesscoin.ForkChoice

/-!
The fork choice as a tree of validated blocks.

What one insertion can do is said once, in `insertBlock_cases`: nothing, or a new node whose
block is valid in the context its parent gives. From it comes the invariant `Tree`: every
node is the one its block makes under its parent, every node is the end of a branch of the
store, and the best tip is the greatest node by score, height and hash.
-/

namespace Chesscoin.ForkTree

open Chesscoin.Lib Chesscoin.Lib.Linked Chesscoin.Domain Chesscoin.Simulator
  Chesscoin.Validation Chesscoin.Mining Chesscoin.ForkChoice
open ForkChoiceState

variable {hasher : HashPort} {sampler : SamplingPort} {fc fc' : ForkChoiceState}

/-! ### The order of tips -/

/-- Work first, then height, then the hash as a number. -/
def rank (n : ForkNode) : ℕ ×ₗ ℕ ×ₗ ℕ :=
  toLex (n.workScore, toLex (n.nextHeight.toNat, ByteString.be n.hash.bytes))

lemma compare_then_isGT {a b : ℕ} {o : Ordering} :
    ((compare a b).then o).isGT = true ↔ b < a ∨ a = b ∧ o.isGT = true := by
  rcases lt_trichotomy a b with h | h | h
  · rw [compare_lt_iff_lt.mpr h]
    simp only [Ordering.then, Ordering.isGT, Bool.false_eq_true, false_iff]
    omega
  · rw [compare_eq_iff_eq.mpr h]
    simp [Ordering.then, h]
  · rw [compare_gt_iff_gt.mpr h]
    simp [Ordering.then, h]

/-- **A better tip is one of greater rank.** -/
theorem isBetterTip_iff (candidate best : ForkNode) :
    isBetterTip candidate best = true ↔ rank best < rank candidate := by
  have hbytes : (ByteString.cmp candidate.hash.bytes best.hash.bytes).isGT = true ↔
      ByteString.be best.hash.bytes < ByteString.be candidate.hash.bytes := by
    rw [ByteString.cmp_eq_compare (candidate.hash.size.trans best.hash.size.symm),
      ← compare_gt_iff_gt]
    cases compare (ByteString.be candidate.hash.bytes) (ByteString.be best.hash.bytes) <;>
      simp
  rw [isBetterTip, compare_then_isGT, compare_then_isGT, hbytes, rank, rank,
    Prod.Lex.toLex_lt_toLex, Prod.Lex.toLex_lt_toLex]
  simp only [eq_comm]

lemma isBetterTip_eq_false (candidate best : ForkNode) :
    isBetterTip candidate best = false ↔ rank candidate ≤ rank best := by
  rw [← not_lt, ← isBetterTip_iff, Bool.not_eq_true]

lemma hash_eq_of_rank_eq {n m : ForkNode} (h : rank n = rank m) : n.hash = m.hash := by
  simp only [rank, EmbeddingLike.apply_eq_iff_eq, Prod.mk.injEq] at h
  have hbytes := ByteString.be_inj (n.hash.size.trans m.hash.size.symm) h.2.2
  cases hn : n.hash
  cases hm : m.hash
  simp_all

/-! ### What an insertion does -/

@[simp] lemma maybeUpdateBest_look (h : Digest) : (fc.maybeUpdateBest h).look = fc.look := by
  unfold maybeUpdateBest
  split
  · rfl
  · split <;> rfl

@[simp] lemma maybeUpdateBest_config (h : Digest) : (fc.maybeUpdateBest h).config = fc.config := by
  unfold maybeUpdateBest
  split
  · rfl
  · split <;> rfl

@[simp] lemma addNode_config (node : ForkNode) : (fc.addNode node).config = fc.config := by
  simp [addNode]

lemma addNode_look_self (fc : ForkChoiceState) (node : ForkNode) :
    (fc.addNode node).look node.hash = some node := by
  rw [addNode, maybeUpdateBest_look]
  exact Finmap.lookup_insert _

lemma addNode_forkNode_look (fc : ForkChoiceState) (score : ℕ) (block : Block) :
    (fc.addNode (fc.forkNode hasher score block)).look (blockHash hasher block) =
      some (fc.forkNode hasher score block) :=
  addNode_look_self fc _

lemma addNode_look_of_ne {node : ForkNode} {k : Digest} (h : k ≠ node.hash) :
    (fc.addNode node).look k = fc.look k := by
  rw [addNode, maybeUpdateBest_look]
  exact Finmap.lookup_insert_of_ne _ h

lemma containsBlock_iff (k : Digest) : fc.containsBlock k = true ↔ ∃ n, fc.look k = some n :=
  Option.isSome_iff_exists

lemma containsBlock_mono (hext : Extends fc.look fc'.look)
    {k : Digest} (h : fc.containsBlock k = true) : fc'.containsBlock k = true := by
  obtain ⟨n, hn⟩ := (containsBlock_iff k).mp h
  exact (containsBlock_iff k).mpr ⟨n, hext k n hn⟩

lemma not_containsBlock_iff (k : Digest) : fc.containsBlock k = false ↔ fc.look k = none := by
  simp [containsBlock]

lemma addNode_extends (node : ForkNode) (hnew : fc.look node.hash = none) :
    Extends fc.look (fc.addNode node).look := by
  intro k n hk
  rw [addNode_look_of_ne, hk]
  rintro rfl
  rw [hnew] at hk
  cases hk

lemma maybeUpdateBest_first {node : ForkNode} {h : Digest} (hself : fc.look h = some node)
    (htip : fc.bestTip = none) : (fc.maybeUpdateBest h).bestTip = some h := by
  simp [maybeUpdateBest, shouldUpdate, hself, htip]

lemma maybeUpdateBest_tip {node best : ForkNode} {h tip : Digest}
    (hself : fc.look h = some node) (htip : fc.bestTip = some tip)
    (hlook : fc.look tip = some best) :
    (fc.maybeUpdateBest h).bestTip = if isBetterTip node best then some h else some tip := by
  simp only [maybeUpdateBest, shouldUpdate, hself, htip, Option.bind_some, hlook]
  split
  · rfl
  · exact htip

/-- The best tip after a new node: the node if it ranks higher, else the tip there was. -/
lemma addNode_bestTip (node : ForkNode) (hbest : Best rank fc.look fc.bestTip)
    (hnew : fc.look node.hash = none) :
    (fc.bestTip = none ∧ (fc.addNode node).bestTip = some node.hash) ∨
      ∃ tip best, fc.bestTip = some tip ∧ fc.look tip = some best ∧
        ((rank best < rank node ∧ (fc.addNode node).bestTip = some node.hash) ∨
          (rank node ≤ rank best ∧ (fc.addNode node).bestTip = some tip)) := by
  have hself : ({ fc with nodes := fc.nodes.insert node.hash node } : ForkChoiceState).look
      node.hash = some node := Finmap.lookup_insert _
  cases htip : fc.bestTip with
  | none => exact .inl ⟨rfl, maybeUpdateBest_first hself htip⟩
  | some tip =>
    rw [htip] at hbest
    obtain ⟨best, hlook, -⟩ := hbest
    have hne : tip ≠ node.hash := by
      rintro rfl
      rw [hnew] at hlook
      cases hlook
    have hlook' : ({ fc with nodes := fc.nodes.insert node.hash node } : ForkChoiceState).look
        tip = some best := (Finmap.lookup_insert_of_ne _ hne).trans hlook
    refine .inr ⟨tip, best, rfl, hlook, ?_⟩
    rw [addNode, maybeUpdateBest_tip hself htip hlook']
    cases hbetter : isBetterTip node best with
    | true => exact .inl ⟨(isBetterTip_iff node best).mp hbetter, rfl⟩
    | false => exact .inr ⟨(isBetterTip_eq_false node best).mp hbetter, rfl⟩

/-- **The outcomes of an insertion**: the block is known, or it is refused, or it is new and
valid under its parent. -/
theorem insertBlock_cases (hasher : HashPort) (sampler : SamplingPort) (fc : ForkChoiceState)
    (block : Block) :
    (fc.containsBlock (blockHash hasher block) = true ∧
        fc.insertBlock hasher sampler block = (.ok (blockHash hasher block), fc)) ∨
      (∃ e, fc.look (blockHash hasher block) = none ∧
        (∀ ctx score, fc.parentContext block = .ok (ctx, score) →
          ¬ Valid hasher sampler fc.config ctx block) ∧
        fc.insertBlock hasher sampler block = (.error e, fc)) ∨
      ∃ ctx score, fc.look (blockHash hasher block) = none ∧
        fc.parentContext block = .ok (ctx, score) ∧
        Valid hasher sampler fc.config ctx block ∧
        fc.insertBlock hasher sampler block =
          (.ok (blockHash hasher block), fc.addNode (fc.forkNode hasher score block)) := by
  cases hc : fc.containsBlock (blockHash hasher block) with
  | true => exact .inl ⟨rfl, by simp [insertBlock, hc]⟩
  | false =>
    have hlook := (not_containsBlock_iff _).mp hc
    cases hp : fc.parentContext block with
    | error e =>
      refine .inr (.inl ⟨e, hlook, ?_, by simp [insertBlock, hc, hp]⟩)
      intro ctx score h
      cases h
    | ok r =>
      obtain ⟨ctx, score⟩ := r
      cases hv : validateBlockAfter hasher sampler fc.config ctx block with
      | error e =>
        refine .inr (.inl ⟨.invalidBlock e, hlook, ?_, by simp [insertBlock, hc, hp, hv]⟩)
        intro ctx' score' h hvalid
        cases h
        rw [(validateBlockAfter_ok hasher sampler fc.config ctx block).mpr hvalid] at hv
        cases hv
      | ok u =>
        exact .inr (.inr ⟨ctx, score, hlook, rfl,
          (validateBlockAfter_ok hasher sampler fc.config ctx block).mp hv,
          by simp [insertBlock, hc, hp, hv]⟩)

/-- A new block that is taken in is valid after its parent. -/
lemma insertBlock_taken {block : Block} {hash : Digest}
    (hnew : fc.look (blockHash hasher block) = none)
    (hins : fc.insertBlock hasher sampler block = (.ok hash, fc')) :
    ∃ ctx score, fc.parentContext block = .ok (ctx, score) ∧
      Valid hasher sampler fc.config ctx block ∧ hash = blockHash hasher block ∧
      fc' = fc.addNode (fc.forkNode hasher score block) := by
  rcases insertBlock_cases hasher sampler fc block with
    ⟨hc, -⟩ | ⟨e, -, -, hr⟩ | ⟨ctx, score, -, hctx, hvalid, hr⟩
  · rw [(not_containsBlock_iff _).mpr hnew] at hc
    cases hc
  · rw [hr] at hins
    cases hins
  · rw [hr] at hins
    cases hins
    exact ⟨ctx, score, hctx, hvalid, rfl, rfl⟩

/-- A new block that is valid after its parent is taken in. -/
lemma insertBlock_valid {block : Block} {ctx : ParentContext} {score : ℕ}
    (hnew : fc.look (blockHash hasher block) = none)
    (hctx : fc.parentContext block = .ok (ctx, score))
    (hvalid : Valid hasher sampler fc.config ctx block) :
    fc.insertBlock hasher sampler block =
      (.ok (blockHash hasher block), fc.addNode (fc.forkNode hasher score block)) := by
  rcases insertBlock_cases hasher sampler fc block with
    ⟨hc, -⟩ | ⟨e, -, hinvalid, -⟩ | ⟨ctx', score', -, hctx', -, hr⟩
  · rw [(not_containsBlock_iff _).mpr hnew] at hc
    cases hc
  · exact absurd hvalid (hinvalid ctx score hctx)
  · rw [hctx] at hctx'
    cases hctx'
    exact hr

/-- A new block that is not valid after its parent is refused. -/
lemma insertBlock_refused {block : Block} (hnew : fc.look (blockHash hasher block) = none)
    (hinvalid : ∀ ctx score, fc.parentContext block = .ok (ctx, score) →
      ¬ Valid hasher sampler fc.config ctx block) :
    ∃ e, fc.insertBlock hasher sampler block = (.error e, fc) := by
  rcases insertBlock_cases hasher sampler fc block with
    ⟨hc, -⟩ | ⟨e, -, -, hr⟩ | ⟨ctx, score, -, hctx, hvalid, -⟩
  · rw [(not_containsBlock_iff _).mpr hnew] at hc
    cases hc
  · exact ⟨e, hr⟩
  · exact absurd hvalid (hinvalid ctx score hctx)

/-! ### The invariant -/

lemma parentContext_ok {block : Block} {ctx : ParentContext} {score : ℕ}
    (h : fc.parentContext block = .ok (ctx, score)) :
    (block.header.previousBlock = Digest.zero ∧ ctx = ParentContext.genesis ∧ score = 0) ∨
      (block.header.previousBlock ≠ Digest.zero ∧
        ∃ p, fc.look block.header.previousBlock = some p ∧
          ctx = ⟨p.nextHeight, p.hash, p.block.header.modelAfter⟩ ∧ score = p.workScore) := by
  unfold parentContext at h
  split at h
  · next hz =>
    cases h
    exact .inl ⟨hz, rfl, rfl⟩
  · next hz =>
    split at h
    · cases h
    · next p hp =>
      cases h
      exact .inr ⟨hz, p, hp, rfl, rfl⟩

lemma parentContext_mono (hext : Extends fc.look fc'.look) {block : Block}
    {r : ParentContext × ℕ} (h : fc.parentContext block = .ok r) :
    fc'.parentContext block = .ok r := by
  obtain ⟨ctx, score⟩ := r
  rcases parentContext_ok h with ⟨hz, rfl, rfl⟩ | ⟨hz, p, hp, rfl, rfl⟩
  · rw [parentContext, if_pos hz]
  · rw [parentContext, if_neg hz, hext _ _ hp]

lemma parentContext_header {b b' : Block} (h : b.header = b'.header) :
    fc.parentContext b = fc.parentContext b' := by
  simp only [ForkChoiceState.parentContext, h]

lemma parentContext_of_known {b : Block}
    (h : b.header.previousBlock = Digest.zero ∨
      fc.containsBlock b.header.previousBlock = true) :
    ∃ ctx score, fc.parentContext b = .ok (ctx, score) := by
  by_cases hz : b.header.previousBlock = Digest.zero
  · exact ⟨_, _, by rw [ForkChoiceState.parentContext, if_pos hz]⟩
  · rcases h with hz' | hknown
    · exact absurd hz' hz
    · obtain ⟨p, hp⟩ := (containsBlock_iff _).mp hknown
      exact ⟨_, _, by rw [ForkChoiceState.parentContext, if_neg hz, hp]⟩

/-- `n` is the node its block makes under its parent, kept under the hash of the block. -/
structure Stored (hasher : HashPort) (sampler : SamplingPort) (fc : ForkChoiceState)
    (k : Digest) (n : ForkNode) : Prop where
  keyed : blockHash hasher n.block = k
  made : ∃ ctx score, fc.parentContext n.block = .ok (ctx, score) ∧
    Valid hasher sampler fc.config ctx n.block ∧ n = fc.forkNode hasher score n.block

structure Tree (hasher : HashPort) (sampler : SamplingPort) (fc : ForkChoiceState) : Prop where
  stored : ∀ k n, fc.look k = some n → Stored hasher sampler fc k n
  rooted : Rooted Digest.zero ForkNode.parent fc.look
  best : Best rank fc.look fc.bestTip

lemma Stored.hash {k : Digest} {n : ForkNode} (h : Stored hasher sampler fc k n) :
    n.hash = k := by
  obtain ⟨_, _, _, _, hn⟩ := h.made
  rw [← h.keyed, hn]
  rfl

lemma Stored.parent {k : Digest} {n : ForkNode} (h : Stored hasher sampler fc k n) :
    n.parent = n.block.header.previousBlock := by
  obtain ⟨_, _, _, _, hn⟩ := h.made
  rw [hn]
  rfl

lemma Stored.nextHeight {k : Digest} {n : ForkNode} (h : Stored hasher sampler fc k n) :
    n.nextHeight = n.block.header.height + 1 := by
  obtain ⟨_, _, _, _, hn⟩ := h.made
  rw [hn]
  rfl

lemma forkNode_congr (h : fc'.config = fc.config) (score : ℕ) (block : Block) :
    fc'.forkNode hasher score block = fc.forkNode hasher score block := by
  simp only [forkNode, h]

lemma Stored.mono {k : Digest} {n : ForkNode} (h : Stored hasher sampler fc k n)
    (hext : Extends fc.look fc'.look) (hconfig : fc'.config = fc.config) :
    Stored hasher sampler fc' k n := by
  obtain ⟨ctx, score, hp, hv, hn⟩ := h.made
  exact ⟨h.keyed, ctx, score, parentContext_mono hext hp, by rwa [hconfig],
    by rwa [forkNode_congr hconfig]⟩

lemma look_new (config : ChainConfig) (k : Digest) : (new config).look k = none :=
  Finmap.lookup_empty k

lemma known_new {P : Block → Prop} (config : ChainConfig) :
    ∀ k n, (new config).look k = some n → P n.block := by
  intro k n hk
  rw [look_new] at hk
  cases hk

lemma Tree.new (hasher : HashPort) (sampler : SamplingPort) (config : ChainConfig) :
    Tree hasher sampler (new config) := by
  refine ⟨fun k n h => ?_, fun k n h => ?_, fun k => look_new config k⟩
  · rw [look_new] at h
    cases h
  · rw [look_new] at h
    cases h

/-- **A new valid node keeps the tree.** -/
theorem Tree.addNode (h : Tree hasher sampler fc) {block : Block} {ctx : ParentContext}
    {score : ℕ} (hnew : fc.look (blockHash hasher block) = none)
    (hp : fc.parentContext block = .ok (ctx, score))
    (hv : Valid hasher sampler fc.config ctx block) :
    Tree hasher sampler (fc.addNode (fc.forkNode hasher score block)) := by
  have hext : Extends fc.look (fc.addNode (fc.forkNode hasher score block)).look :=
    addNode_extends _ hnew
  have hself : (fc.addNode (fc.forkNode hasher score block)).look (blockHash hasher block) =
      some (fc.forkNode hasher score block) := addNode_forkNode_look fc score block
  have hother : ∀ k', k' ≠ blockHash hasher block →
      (fc.addNode (fc.forkNode hasher score block)).look k' = fc.look k' :=
    fun k' hk' => addNode_look_of_ne hk'
  refine ⟨fun k n hk => ?_, ?_, ?_⟩
  · by_cases he : k = blockHash hasher block
    · subst he
      rw [hself, Option.some.injEq] at hk
      subst hk
      exact ⟨rfl, ctx, score, parentContext_mono hext hp, by rwa [addNode_config],
        (forkNode_congr (addNode_config _) score block).symm⟩
    · rw [hother k he] at hk
      exact (h.stored k n hk).mono hext (addNode_config _)
  · refine h.rooted.insert hext hself hother ?_
    rcases parentContext_ok hp with ⟨hz, -, -⟩ | ⟨-, p, hlook, -, -⟩
    · exact .inl hz
    · exact .inr ⟨p, hlook⟩
  · have hbest := h.best
    rcases addNode_bestTip (fc.forkNode hasher score block) h.best hnew with
      ⟨htip, htip'⟩ | ⟨tip, best, htip, hlook, ⟨hlt, htip'⟩ | ⟨hle, htip'⟩⟩
    · rw [htip] at hbest
      rw [htip']
      exact hbest.insert_first hself hother
    · rw [htip] at hbest
      rw [htip']
      exact hbest.insert_better hlook hself hother hlt
    · rw [htip] at hbest
      rw [htip']
      exact hbest.insert_keep hlook hext hself hother hle

theorem Tree.insertBlock (h : Tree hasher sampler fc) (block : Block) :
    Tree hasher sampler (fc.insertBlock hasher sampler block).2 := by
  rcases insertBlock_cases hasher sampler fc block with
    ⟨-, hr⟩ | ⟨e, -, -, hr⟩ | ⟨ctx, score, hnew, hp, hv, hr⟩
  · rw [hr]
    exact h
  · rw [hr]
    exact h
  · rw [hr]
    exact h.addNode hnew hp hv

theorem Tree.insertAll (h : Tree hasher sampler fc) (blocks : List Block) :
    Tree hasher sampler (fc.insertAll hasher sampler blocks) := by
  induction blocks generalizing fc with
  | nil => exact h
  | cons block blocks ih => exact ih (h.insertBlock block)

lemma insertBlock_config (hasher : HashPort) (sampler : SamplingPort) (fc : ForkChoiceState)
    (block : Block) : (fc.insertBlock hasher sampler block).2.config = fc.config := by
  rcases insertBlock_cases hasher sampler fc block with
    ⟨-, hr⟩ | ⟨e, -, -, hr⟩ | ⟨ctx, score, -, -, -, hr⟩ <;> simp [hr]

lemma insertBlock_extends (hasher : HashPort) (sampler : SamplingPort) (fc : ForkChoiceState)
    (block : Block) :
    Extends fc.look (fc.insertBlock hasher sampler block).2.look := by
  rcases insertBlock_cases hasher sampler fc block with
    ⟨-, hr⟩ | ⟨e, -, -, hr⟩ | ⟨ctx, score, hnew, -, -, hr⟩
  · rw [hr]
    exact Extends.refl _
  · rw [hr]
    exact Extends.refl _
  · rw [hr]
    exact addNode_extends _ hnew

lemma config_of_insertBlock {block : Block} {r : Except ForkChoiceError Digest}
    (h : fc.insertBlock hasher sampler block = (r, fc')) : fc'.config = fc.config := by
  have hconfig := insertBlock_config hasher sampler fc block
  rwa [h] at hconfig

lemma extends_of_insertBlock {block : Block} {r : Except ForkChoiceError Digest}
    (h : fc.insertBlock hasher sampler block = (r, fc')) : Extends fc.look fc'.look := by
  have hext := insertBlock_extends hasher sampler fc block
  rwa [h] at hext

lemma insertAll_cons {block : Block} {r : Except ForkChoiceError Digest}
    (h : fc.insertBlock hasher sampler block = (r, fc')) (blocks : List Block) :
    fc.insertAll hasher sampler (block :: blocks) = fc'.insertAll hasher sampler blocks := by
  simp only [insertAll, List.foldl_cons, h]

lemma Tree.of_insertBlock {block : Block} {r : Except ForkChoiceError Digest}
    (h : Tree hasher sampler fc) (hins : fc.insertBlock hasher sampler block = (r, fc')) :
    Tree hasher sampler fc' := by
  have htree := h.insertBlock block
  rwa [hins] at htree

/-- What is stored after an insertion was stored before, or is the block's own node. -/
lemma look_insertBlock_some {block : Block} {r : Except ForkChoiceError Digest}
    (h : fc.insertBlock hasher sampler block = (r, fc')) {k : Digest} {n : ForkNode}
    (hk : fc'.look k = some n) : fc.look k = some n ∨ n.block = block := by
  rcases insertBlock_cases hasher sampler fc block with
    ⟨-, hr⟩ | ⟨e, -, -, hr⟩ | ⟨ctx, score, -, -, -, hr⟩ <;> rw [hr] at h <;> cases h
  · exact .inl hk
  · exact .inl hk
  · by_cases he : k = blockHash hasher block
    · subst he
      rw [addNode_forkNode_look, Option.some.injEq] at hk
      subst hk
      exact .inr rfl
    · exact .inl ((addNode_look_of_ne he).symm.trans hk)

lemma known_of_insertBlock {block : Block} {r : Except ForkChoiceError Digest} {P : Block → Prop}
    (h : fc.insertBlock hasher sampler block = (r, fc'))
    (hknown : ∀ k n, fc.look k = some n → P n.block) (hblock : P block) :
    ∀ k n, fc'.look k = some n → P n.block := by
  intro k n hk
  rcases look_insertBlock_some h hk with hold | rfl
  · exact hknown k n hold
  · exact hblock

/-- A successful insertion adds the hash of its block to what is known, and nothing else. -/
lemma look_insertBlock_none {block : Block} {hash : Digest}
    (h : fc.insertBlock hasher sampler block = (.ok hash, fc')) (k : Digest) :
    fc'.look k = none ↔ fc.look k = none ∧ blockHash hasher block ≠ k := by
  rcases insertBlock_cases hasher sampler fc block with
    ⟨hc, hr⟩ | ⟨e, -, -, hr⟩ | ⟨ctx, score, -, -, -, hr⟩ <;> rw [hr] at h <;> cases h
  · obtain ⟨n, hn⟩ := (containsBlock_iff _).mp hc
    refine ⟨fun hk => ⟨hk, ?_⟩, fun hk => hk.1⟩
    rintro rfl
    rw [hn] at hk
    cases hk
  · by_cases he : k = blockHash hasher block
    · subst he
      simp [addNode_forkNode_look]
    · rw [addNode_look_of_ne he]
      simp [Ne.symm he]

lemma look_insertBlock_self {block : Block} {hash : Digest}
    (h : fc.insertBlock hasher sampler block = (.ok hash, fc')) :
    ∃ n, fc'.look (blockHash hasher block) = some n := by
  rw [← Option.ne_none_iff_exists', ne_eq, look_insertBlock_none h]
  exact fun hk => hk.2 rfl

/-! ### The best chain -/

lemma branch_length_le {k : Digest} {l : List ForkNode}
    (hb : Branch Digest.zero ForkNode.parent fc.look k l) : l.length ≤ fc.knownBlockCount := by
  refine hb.length_le fc.nodes.keys fun k n hk => ?_
  rw [Finmap.mem_keys, ← Finmap.lookup_isSome]
  exact Option.isSome_iff_exists.mpr ⟨n, hk⟩

/-- The walk from the best tip ends, at the branch of the tip. -/
lemma Tree.walkBestChain (h : Tree hasher sampler fc) :
    (fc.bestTip = none ∧ fc.walkBestChain = some []) ∨
      ∃ tip n l, fc.bestTip = some tip ∧ fc.look tip = some n ∧
        Branch Digest.zero ForkNode.parent fc.look tip l ∧ fc.walkBestChain = some l := by
  cases htip : fc.bestTip with
  | none =>
    refine .inl ⟨rfl, ?_⟩
    rw [ForkChoiceState.walkBestChain, htip]
    cases fc.knownBlockCount <;> rfl
  | some tip =>
    have hbest := h.best
    rw [htip] at hbest
    obtain ⟨n, hn, -⟩ := hbest
    obtain ⟨l, hl⟩ := h.rooted tip n hn
    refine .inr ⟨tip, n, l, rfl, hn, hl, ?_⟩
    rw [ForkChoiceState.walkBestChain, htip, walk_branch hl (branch_length_le hl) [],
      List.append_nil]

lemma Tree.bestChain_eq (h : Tree hasher sampler fc) {tip : Digest} {l : List ForkNode}
    (htip : fc.bestTip = some tip) (hb : Branch Digest.zero ForkNode.parent fc.look tip l) :
    fc.bestChain = l.map (·.block) := by
  rcases h.walkBestChain with ⟨htip', -⟩ | ⟨tip', n, l', htip', -, hb', hw⟩
  · rw [htip] at htip'
    cases htip'
  · rw [htip] at htip'
    cases htip'
    rw [bestChain, hw, hb.unique hb', Option.getD_some]

lemma Tree.bestChain_nil (htip : fc.bestTip = none) : fc.bestChain = [] := by
  have hw : fc.walkBestChain = some [] := by
    rw [ForkChoiceState.walkBestChain, htip]
    cases fc.knownBlockCount <;> rfl
  rw [bestChain, hw]
  rfl

/-- Every block of the best chain is known. -/
lemma bestChain_contains (h : Tree hasher sampler fc) (b : Block) (hb : b ∈ fc.bestChain) :
    fc.containsBlock (blockHash hasher b) = true := by
  rcases h.walkBestChain with ⟨htip, -⟩ | ⟨tip, n, l, htip, -, hl, -⟩
  · rw [Tree.bestChain_nil htip] at hb
    cases hb
  · rw [h.bestChain_eq htip hl] at hb
    obtain ⟨m, hm, rfl⟩ := List.mem_map.mp hb
    obtain ⟨k, hk⟩ := hl.stored m hm
    rw [(h.stored k m hk).keyed]
    exact (containsBlock_iff _).mpr ⟨m, hk⟩

/-! ### Replaying a branch -/

lemma headContext_append (config : ChainConfig) (blocks : List Block) (b : Block) :
    (ChainState.mk config (blocks ++ [b])).headContext hasher =
      ⟨UInt64.ofNat blocks.length + 1, blockHash hasher b, b.header.modelAfter⟩ := by
  simp [ChainState.headContext, ChainState.height, ChainState.headHash,
    ChainState.currentModel]

/-- A chain that takes every block is the chain with them at its end. -/
lemma applyAll_eq {c c' : ChainState} {blocks : List Block}
    (h : applyAll hasher sampler c blocks = .ok c') : c' = ⟨c.config, c.blocks ++ blocks⟩ := by
  induction blocks generalizing c with
  | nil =>
    cases h
    rw [List.append_nil]
  | cons b blocks ih =>
    rw [applyAll] at h
    split at h
    · cases h
    · next hash c₁ happly =>
      unfold ChainState.applyBlock at happly
      split at happly <;> cases happly
      rw [ih h, List.append_assoc, List.singleton_append]

lemma applyAll_append {c c' : ChainState} (blocks : List Block) {b : Block}
    (h : applyAll hasher sampler c blocks = .ok c')
    (hv : Valid hasher sampler c'.config (c'.headContext hasher) b) :
    applyAll hasher sampler c (blocks ++ [b]) =
      .ok { c' with blocks := c'.blocks ++ [b] } := by
  induction blocks generalizing c with
  | nil =>
    cases h
    have hok := (validateBlockAfter_ok hasher sampler c'.config (c'.headContext hasher) b).mpr hv
    simp [applyAll, ChainState.applyBlock, ChainState.validateNextBlock, hok]
  | cons a blocks ih =>
    rw [List.cons_append, applyAll]
    rw [applyAll] at h
    split
    · next e _ heq =>
      rw [heq] at h
      cases h
    · next c'' heq =>
      rw [heq] at h
      exact ih h

/-- **A branch can be replayed**, and the replay ends in the context its last node gives. -/
theorem Tree.replay_branch (h : Tree hasher sampler fc) {k : Digest} {l : List ForkNode}
    (hb : Branch Digest.zero ForkNode.parent fc.look k l) :
    ∃ n, fc.look k = some n ∧
      chainFromBlocks hasher sampler fc.config (l.map (·.block)) =
        .ok ⟨fc.config, l.map (·.block)⟩ ∧
      (ChainState.mk fc.config (l.map (·.block))).headContext hasher =
        ⟨n.nextHeight, n.hash, n.block.header.modelAfter⟩ := by
  induction hb with
  | @base k n hk hp =>
    have hs := h.stored k n hk
    obtain ⟨ctx, score, hctx, hv, -⟩ := hs.made
    rcases parentContext_ok hctx with ⟨-, rfl, -⟩ | ⟨hz, -⟩
    · refine ⟨n, hk, ?_, ?_⟩
      · exact applyAll_append (c := ChainState.new fc.config) [] rfl hv
      · rw [List.map_singleton, ← List.nil_append [n.block], headContext_append, hs.keyed,
          hs.nextHeight, hv.height, hs.hash]
        rfl
    · exact absurd (hs.parent ▸ hp) hz
  | @snoc k n l hk hp hl ih =>
    obtain ⟨p, hlook, hreplay, hhead⟩ := ih
    have hs := h.stored k n hk
    obtain ⟨ctx, score, hctx, hv, -⟩ := hs.made
    rcases parentContext_ok hctx with ⟨hz, -⟩ | ⟨-, p', hlook', rfl, -⟩
    · exact absurd (hs.parent.trans hz) hp
    · rw [hs.parent, hlook'] at hlook
      cases hlook
      rw [← hhead] at hv
      refine ⟨n, hk, ?_, ?_⟩
      · rw [List.map_append, List.map_singleton]
        exact applyAll_append _ hreplay hv
      · have hheight : n.block.header.height = UInt64.ofNat (l.map (·.block)).length := hv.height
        rw [List.map_append, List.map_singleton, headContext_append, hs.keyed, hs.nextHeight,
          hs.hash, hheight]

end Chesscoin.ForkTree

import Chesscoin.LocalMining

/-!
Work scores wrap around.

A block is worth at most `2 ^ 120`, and a score is a sum of 128 bits, so the sums along a chain
fit while the chain is short: the score of a node is then the number of blocks of its branch
times the worth of one. With a difficulty of 120 bits or more a chain has room for 255 blocks.
The next one wraps around to nothing, and the chain it is on loses to the chain without it.
-/

namespace Chesscoin.WorkScores

open Chesscoin.Lib.ByteString Chesscoin.Lib.Linked Chesscoin.Domain Chesscoin.Simulator
  Chesscoin.Validation Chesscoin.Mining Chesscoin.ForkChoice Chesscoin.ForkTree
  Chesscoin.ForkInvariant Chesscoin.ActiveView Chesscoin.HonestTrace Chesscoin.LocalMining
  Chesscoin.Adapters
open ForkChoiceState

variable {hasher : HashPort} {sampler : SamplingPort} {fc : ForkChoiceState}

/-! ### Scores and lengths -/

/-- The worth of one block. -/
abbrev worth (config : ChainConfig) : ℕ := configuredBlockWorkScore config.difficultyZeroBits

/-- The number of blocks at which the sum of their worths reaches 128 bits. -/
def room (config : ChainConfig) : ℕ := 2 ^ (128 - min config.difficultyZeroBits.toNat 120)

lemma room_mul_worth (config : ChainConfig) : room config * worth config = 2 ^ 128 := by
  have hle : min config.difficultyZeroBits.toNat 120 ≤ 128 := by omega
  rw [room, worth, configuredBlockWorkScore, ← Nat.pow_add, Nat.sub_add_cancel hle]

lemma lt_room_iff {config : ChainConfig} {n : ℕ} :
    n < room config ↔ n * worth config < 2 ^ 128 := by
  rw [← room_mul_worth config]
  exact (Nat.mul_lt_mul_right (blockWorkScore_pos _)).symm

lemma worth_lt (config : ChainConfig) : worth config < 2 ^ 128 := blockWorkScore_lt _

/-- **A score is read off the length of the branch.** -/
theorem workScore_mod (h : Tree hasher sampler fc) {k : Digest} {l : List ForkNode}
    (hb : Branch Digest.zero ForkNode.parent fc.look k l) {n : ForkNode}
    (hk : fc.look k = some n) : n.workScore = l.length * worth fc.config % 2 ^ 128 := by
  induction hb generalizing n with
  | @base k m hm hp =>
    rw [hk, Option.some.injEq] at hm
    subst hm
    have hs := h.stored k n hk
    obtain ⟨ctx, score, hctx, -, hn⟩ := hs.made
    rcases parentContext_ok hctx with ⟨-, -, rfl⟩ | ⟨hz, -⟩
    · rw [hn, List.length_singleton, Nat.one_mul]
      exact congrArg (· % 2 ^ 128) (Nat.zero_add _)
    · exact absurd (hs.parent.symm.trans hp) hz
  | @snoc k m l hm hp hl ih =>
    rw [hk, Option.some.injEq] at hm
    subst hm
    have hs := h.stored k n hk
    obtain ⟨ctx, score, hctx, -, hn⟩ := hs.made
    rcases parentContext_ok hctx with ⟨hz, -⟩ | ⟨-, p, hlook, -, rfl⟩
    · exact absurd (hs.parent.trans hz) hp
    · rw [← hs.parent] at hlook
      have hscore : p.workScore = l.length * worth fc.config % 2 ^ 128 := ih hlook
      have hsum : n.workScore = (p.workScore + worth fc.config) % 2 ^ 128 := by
        rw [hn]
        rfl
      rw [hsum, hscore, Nat.mod_add_mod, List.length_append, List.length_singleton, Nat.succ_mul]

/-- While it fits, a score is the number of blocks times the worth of one. -/
lemma workScore_eq (h : Tree hasher sampler fc) {k : Digest} {l : List ForkNode}
    (hb : Branch Digest.zero ForkNode.parent fc.look k l) {n : ForkNode}
    (hk : fc.look k = some n) (hroom : l.length < room fc.config) :
    n.workScore = l.length * worth fc.config :=
  (workScore_mod h hb hk).trans (Nat.mod_eq_of_lt (lt_room_iff.mp hroom))

/-- Every chain of the store is short enough. -/
def ShortChains (fc : ForkChoiceState) : Prop :=
  ∀ k l, Branch Digest.zero ForkNode.parent fc.look k l → l.length < room fc.config

lemma scoresFit_of_short (h : Tree hasher sampler fc) (hshort : ShortChains fc) :
    ScoresFit fc := by
  intro k n p hk hp hlook
  obtain ⟨l, hl⟩ := h.rooted _ p hlook
  have hlen := hshort k _ (.snoc hk hp hl)
  rw [List.length_append, List.length_singleton] at hlen
  have hfits := lt_room_iff.mp hlen
  rw [workScore_eq h hl hlook (by omega), ← Nat.succ_mul]
  exact hfits

/-- While no sum wraps around, scores grow with each block, so that chains stay short. -/
lemma short_of_scoresFit (h : Tree hasher sampler fc) (hfit : ScoresFit fc) : ShortChains fc := by
  intro k l hb
  induction hb with
  | base _ _ =>
    rw [lt_room_iff, List.length_singleton, Nat.one_mul]
    exact worth_lt _
  | @snoc k n l hk hp hl ih =>
    obtain ⟨p, hlook⟩ : ∃ p, fc.look n.parent = some p := by
      obtain ⟨p, hlook, -⟩ := h.replay_branch hl
      exact ⟨p, hlook⟩
    have hsum := hfit k n p hk hp hlook
    rw [workScore_eq h hl hlook ih] at hsum
    rw [lt_room_iff, List.length_append, List.length_singleton, Nat.succ_mul]
    exact hsum

/-! ### The longer chain -/

/-- Among short chains the longer one scores more. -/
lemma longer_better (h : Tree hasher sampler fc) (hshort : ShortChains fc) {k k' : Digest}
    {l l' : List ForkNode} {n n' : ForkNode}
    (hl : Branch Digest.zero ForkNode.parent fc.look k l) (hk : fc.look k = some n)
    (hl' : Branch Digest.zero ForkNode.parent fc.look k' l') (hk' : fc.look k' = some n')
    (hlt : l.length < l'.length) : isBetterTip n' n = true := by
  have hscore := workScore_eq h hl hk (hshort k l hl)
  have hscore' := workScore_eq h hl' hk' (hshort k' l' hl')
  have hless : n.workScore < n'.workScore := by
    rw [hscore, hscore']
    exact Nat.mul_lt_mul_of_pos_right hlt (blockWorkScore_pos _)
  rw [isBetterTip_iff, rank, rank, Prod.Lex.toLex_lt_toLex]
  exact .inl hless

/-- What is expected of the sums: they fit in 128 bits, a block scores strictly more than its
parent, and the longer of two chains has the better tip. -/
structure WorkAddsUp (fc : ForkChoiceState) : Prop where
  fits : ScoresFit fc
  grows : ∀ k n p, fc.look k = some n → n.parent ≠ Digest.zero → fc.look n.parent = some p →
    p.workScore < n.workScore
  longer : ∀ k l n k' l' n', Branch Digest.zero ForkNode.parent fc.look k l →
    fc.look k = some n → Branch Digest.zero ForkNode.parent fc.look k' l' →
    fc.look k' = some n' → l.length < l'.length → isBetterTip n' n = true

lemma workAddsUp_of_short (h : Tree hasher sampler fc) (hshort : ShortChains fc) :
    WorkAddsUp fc := by
  have hfit := scoresFit_of_short h hshort
  refine ⟨hfit, fun k n p hk hp hlook => ?_, fun k l n k' l' n' hl hk hl' hk' hlt =>
    longer_better h hshort hl hk hl' hk' hlt⟩
  rcases parent_fields h hfit hk with ⟨hz, -, -⟩ | ⟨-, p', hlook', -, hscore⟩
  · exact absurd hz hp
  · rw [hlook, Option.some.injEq] at hlook'
    subst hlook'
    have hpos := blockWorkScore_pos fc.config.difficultyZeroBits
    omega

/-- **Work adds up while chains are short.** Whatever blocks have been inserted, work adds up
if and only if no chain of the store has as many blocks as 128 bits have room for. -/
theorem work_adds_up_iff (hasher : HashPort) (sampler : SamplingPort) (config : ChainConfig)
    (blocks : List Block) :
    WorkAddsUp ((new config).insertAll hasher sampler blocks) ↔
      ShortChains ((new config).insertAll hasher sampler blocks) := by
  have h : Tree hasher sampler ((new config).insertAll hasher sampler blocks) :=
    (Tree.new hasher sampler config).insertAll blocks
  exact ⟨fun hwork => short_of_scoresFit h hwork.fits, workAddsUp_of_short h⟩

/-! ### A chain that is too long -/

/-- A hash that shows the height and has 191 zero bits in front of it. -/
def tallDigest (bytes : Bytes) : Digest :=
  ⟨List.replicate 23 0 ++ 1 :: (bytes.drop 25 ++ List.replicate 8 0).take 8, by
    simp only [List.length_append, List.length_replicate, List.length_cons, List.length_take]
    omega⟩

def tallHash : HashPort := ⟨tallDigest⟩

def tall : ChainConfig := ⟨1, 1, 120⟩

/-- What is mined on next, after a block mined on `parent`. -/
def tallAfter (parent : ParentContext) : ParentContext :=
  let block := candidate tallHash tall parent 0 0 0
  ⟨parent.height + 1, blockHash tallHash block, block.header.modelAfter⟩

/-- What the block after `n` others is mined on. -/
def tallContext : ℕ → ParentContext
  | 0 => ParentContext.genesis
  | n + 1 => tallAfter (tallContext n)

def tallBlock (n : ℕ) : Block := candidate tallHash tall (tallContext n) 0 0 0

def tallNode (n : ℕ) : ForkNode :=
  { hash := blockHash tallHash (tallBlock n)
    parent := (tallContext n).hash
    block := tallBlock n
    nextHeight := UInt64.ofNat (n + 1)
    workScore := (n + 1) * 2 ^ 120 % 2 ^ 128 }

/-- The fork choice once the first `n` blocks of the chain have come in. -/
def tallState (n : ℕ) : ForkChoiceState :=
  (new tall).insertAll tallHash deterministicSampler ((List.range n).map tallBlock)

lemma tallContext_height (n : ℕ) : (tallContext n).height = UInt64.ofNat n := by
  induction n with
  | zero => rfl
  | succ n ih =>
    rw [tallContext, tallAfter, ih, UInt64.ofNat_add]
    rfl

lemma blockHash_tall (block : Block) : (blockHash tallHash block).bytes =
    List.replicate 23 0 ++ 1 :: u64Le block.header.height := by
  have htag : BlockHeader.tag.length = 25 := by decide
  obtain ⟨rest, hrest⟩ : ∃ rest, headerPreimage block.header =
      BlockHeader.tag ++ (u64Le block.header.height ++ rest) :=
    ⟨_, by rw [headerPreimage, BlockHeader.encode, List.append_assoc, List.append_assoc]⟩
  have hshown : ((headerPreimage block.header).drop 25 ++ List.replicate 8 0).take 8 =
      u64Le block.header.height := by
    rw [hrest, List.drop_left' htag, List.append_assoc]
    exact List.take_left' (le_length 8 _)
  exact congrArg (fun shown => List.replicate 23 0 ++ 1 :: shown) hshown

lemma leadingZeroBitsFrom_zeros (n : ℕ) (bytes : Bytes) :
    Digest.leadingZeroBitsFrom (List.replicate n 0 ++ bytes) =
      8 * n + Digest.leadingZeroBitsFrom bytes := by
  induction n with
  | zero => simp
  | succ n ih =>
    rw [List.replicate_succ, List.cons_append, Digest.leadingZeroBitsFrom, if_pos rfl, ih]
    omega

lemma tall_work (block : Block) : 120 ≤ (blockHash tallHash block).leadingZeroBits := by
  rw [Digest.leadingZeroBits, blockHash_tall, leadingZeroBitsFrom_zeros]
  omega

lemma blockHash_tall_ne_zero (block : Block) : blockHash tallHash block ≠ Digest.zero := by
  intro h
  have hbytes := congrArg (fun d => d.bytes[23]?) h
  simp only [blockHash_tall] at hbytes
  simp [Digest.zero] at hbytes

lemma blockHash_tallBlock_inj {n m : ℕ} (hn : n < 2 ^ 64) (hm : m < 2 ^ 64)
    (h : blockHash tallHash (tallBlock n) = blockHash tallHash (tallBlock m)) : n = m := by
  have hbytes := congrArg Digest.bytes h
  rw [blockHash_tall, blockHash_tall] at hbytes
  have hheight := List.append_cancel_left hbytes
  rw [List.cons.injEq] at hheight
  have hnum := le_inj (UInt64.toNat_lt _) (UInt64.toNat_lt _) hheight.2
  have hn' : (tallBlock n).header.height.toNat = n := by
    show (tallContext n).height.toNat = n
    rw [tallContext_height, UInt64.toNat_ofNat', Nat.mod_eq_of_lt hn]
  have hm' : (tallBlock m).header.height.toNat = m := by
    show (tallContext m).height.toNat = m
    rw [tallContext_height, UInt64.toNat_ofNat', Nat.mod_eq_of_lt hm]
  rw [← hn', ← hm', hnum]

lemma tall_valid (n : ℕ) :
    Valid tallHash deterministicSampler tall (tallContext n) (tallBlock n) :=
  valid_of_honest tallHash deterministicSampler deterministicSampler_inRange rfl
    ⟨rfl, rfl, rfl, rfl, rfl, rfl, tall_work _⟩

/-- The store holds the first `n` blocks of the chain and nothing else. -/
structure Holds (n : ℕ) (fc : ForkChoiceState) : Prop where
  tree : Tree tallHash deterministicSampler fc
  config : fc.config = tall
  known : ∀ i < n, fc.look (blockHash tallHash (tallBlock i)) = some (tallNode i)
  only : ∀ k m, fc.look k = some m → ∃ i < n, m = tallNode i

lemma Holds.parentContext {n : ℕ} (h : Holds n fc) :
    fc.parentContext (tallBlock n) = .ok (tallContext n, n * 2 ^ 120 % 2 ^ 128) := by
  cases n with
  | zero => exact if_pos rfl
  | succ n =>
    have hprevious : (tallBlock (n + 1)).header.previousBlock =
        blockHash tallHash (tallBlock n) := rfl
    rw [ForkChoiceState.parentContext, hprevious, if_neg (blockHash_tall_ne_zero _),
      h.known n (Nat.lt_succ_self n)]
    have hheight : UInt64.ofNat (n + 1) = (tallContext (n + 1)).height :=
      (tallContext_height (n + 1)).symm
    simp only [tallNode]
    rw [hheight]
    rfl

lemma Holds.forkNode {n : ℕ} (h : Holds n fc) :
    fc.forkNode tallHash (n * 2 ^ 120 % 2 ^ 128) (tallBlock n) = tallNode n := by
  have hwork : configuredBlockWorkScore fc.config.difficultyZeroBits = 2 ^ 120 := by
    rw [h.config]
    rfl
  have hheight : (tallBlock n).header.height + 1 = UInt64.ofNat (n + 1) := by
    show (tallContext n).height + 1 = _
    rw [tallContext_height, UInt64.ofNat_add]
    rfl
  have hscore : (n * 2 ^ 120 % 2 ^ 128 + 2 ^ 120) % 2 ^ 128 = (n + 1) * 2 ^ 120 % 2 ^ 128 := by
    omega
  rw [ForkChoiceState.forkNode, hwork, hheight, hscore]
  rfl

lemma Holds.insertBlock {n : ℕ} (hn : n < 2 ^ 64) (h : Holds n fc) :
    Holds (n + 1) (fc.insertBlock tallHash deterministicSampler (tallBlock n)).2 := by
  have htree := h.tree.insertBlock (tallBlock n)
  have hconfig := insertBlock_config tallHash deterministicSampler fc (tallBlock n)
  have hnew : fc.look (blockHash tallHash (tallBlock n)) = none := by
    cases hk : fc.look (blockHash tallHash (tallBlock n)) with
    | none => rfl
    | some m =>
      obtain ⟨i, hi, rfl⟩ := h.only _ m hk
      have hsame := blockHash_tallBlock_inj (by omega) hn (h.tree.stored _ _ hk).keyed
      omega
  have hvalid := tall_valid n
  rw [← h.config] at hvalid
  rw [insertBlock_valid hnew h.parentContext hvalid] at htree hconfig ⊢
  have hext := addNode_extends (fc.forkNode tallHash (n * 2 ^ 120 % 2 ^ 128) (tallBlock n)) hnew
  rw [h.forkNode] at htree hconfig hext ⊢
  have hself : (fc.addNode (tallNode n)).look (blockHash tallHash (tallBlock n)) =
      some (tallNode n) := addNode_look_self fc (tallNode n)
  refine ⟨htree, hconfig.trans h.config, fun i hi => ?_, fun k m hk => ?_⟩
  · rcases Nat.lt_succ_iff_lt_or_eq.mp hi with hlt | rfl
    · exact hext _ _ (h.known i hlt)
    · exact hself
  · by_cases he : k = blockHash tallHash (tallBlock n)
    · rw [he, hself, Option.some.injEq] at hk
      exact ⟨n, Nat.lt_succ_self n, hk.symm⟩
    · rw [addNode_look_of_ne he] at hk
      obtain ⟨i, hi, hm⟩ := h.only k m hk
      exact ⟨i, by omega, hm⟩

lemma tallState_holds {n : ℕ} (hn : n ≤ 2 ^ 64) : Holds n (tallState n) := by
  induction n with
  | zero =>
    refine ⟨Tree.new _ _ tall, rfl, fun i hi => absurd hi (Nat.not_lt_zero i), fun k m hk => ?_⟩
    rw [show tallState 0 = new tall from rfl, look_new] at hk
    cases hk
  | succ n ih =>
    have hstep : tallState (n + 1) =
        ((tallState n).insertBlock tallHash deterministicSampler (tallBlock n)).2 := by
      simp only [tallState, insertAll, List.range_succ, List.map_append, List.map_cons,
        List.map_nil, List.foldl_append, List.foldl_cons, List.foldl_nil]
    rw [hstep]
    exact (ih (by omega)).insertBlock (by omega)

lemma tallNode_workScore {n : ℕ} (hn : n < 255) :
    (tallNode n).workScore = (n + 1) * 2 ^ 120 := by
  have hfits : (n + 1) * 2 ^ 120 < 2 ^ 128 := by omega
  exact Nat.mod_eq_of_lt hfits

lemma tallNode_wraps : (tallNode 255).workScore = 0 := by
  show (255 + 1) * 2 ^ 120 % 2 ^ 128 = 0
  norm_num

/-- The best tip is the last block whose score fits. -/
lemma Holds.bestTip {n : ℕ} (h : Holds (n + 1) fc) (hn : n ≤ 255) :
    fc.bestTip = some (blockHash tallHash (tallBlock (min n 254))) := by
  have hparent := h.known (min n 254) (by omega)
  have hbest := h.tree.best
  cases htip : fc.bestTip with
  | none =>
    rw [htip] at hbest
    rw [hbest _] at hparent
    cases hparent
  | some tip =>
    rw [htip] at hbest
    obtain ⟨best, hlook, hmax⟩ := hbest
    obtain ⟨i, hi, rfl⟩ := h.only tip best hlook
    have hle := hmax _ _ hparent
    rw [rank, rank, Prod.Lex.toLex_le_toLex, tallNode_workScore (by omega)] at hle
    simp only at hle
    have hlast : i = min n 254 := by
      rcases Nat.lt_or_ge i 255 with hlt | hge
      · rw [tallNode_workScore hlt] at hle
        omega
      · have hi255 : i = 255 := by omega
        rw [hi255, tallNode_wraps] at hle
        omega
    rw [← (h.tree.stored tip _ hlook).keyed, hlast]
    rfl

lemma Holds.bestContext {n : ℕ} (h : Holds n fc) (hn : n ≤ 256) :
    fc.bestContext = tallContext (min n 255) := by
  cases n with
  | zero =>
    have hbest := h.tree.best
    cases htip : fc.bestTip with
    | none =>
      simp only [ForkChoiceState.bestContext, ForkChoiceState.bestHeight,
        ForkChoiceState.bestHash, ForkChoiceState.bestModel, htip]
      rfl
    | some tip =>
      rw [htip] at hbest
      obtain ⟨best, hlook, -⟩ := hbest
      obtain ⟨i, hi, -⟩ := h.only tip best hlook
      exact absurd hi (Nat.not_lt_zero i)
  | succ n =>
    have htip := h.bestTip (by omega)
    have hlook := h.known (min n 254) (by omega)
    have hheight : (tallNode (min n 254)).nextHeight = (tallContext (min n 254)).height + 1 := by
      rw [tallContext_height, tallNode, UInt64.ofNat_add]
      rfl
    have hmin : min (n + 1) 255 = min n 254 + 1 := by omega
    simp only [ForkChoiceState.bestContext, ForkChoiceState.bestHeight,
      ForkChoiceState.bestHash, ForkChoiceState.bestModel, htip, Option.bind_some, hlook,
      Option.map_some, Option.getD_some]
    rw [hheight, hmin]
    rfl

/-- What is mined on the chain: the next block, and the last one over and over when there is
no room for more. -/
lemma Holds.mineNextBlock {n : ℕ} (h : Holds n fc) (hn : n ≤ 256) :
    fc.mineNextBlock tallHash 0 0 = some (tallBlock (min n 255)) := by
  rw [ForkChoiceState.mineNextBlock, h.config, h.bestContext hn]
  exact mineAfter_of_first tallHash (tall_work _)

/-- Inserting what was mined changes nothing once the chain is full. -/
lemma Holds.insertMined {n : ℕ} (h : Holds n fc) (hn : n ≤ 256) : Holds (min (n + 1) 256)
    (fc.insertBlock tallHash deterministicSampler (tallBlock (min n 255))).2 := by
  rcases Nat.lt_or_ge n 256 with hlt | hge
  · rw [show min (n + 1) 256 = n + 1 by omega, show min n 255 = n by omega]
    exact h.insertBlock (by omega)
  · obtain rfl : n = 256 := by omega
    have hlast := (containsBlock_iff _).mpr ⟨_, h.known 255 (by omega)⟩
    have hsame : (fc.insertBlock tallHash deterministicSampler (tallBlock 255)).2 = fc := by
      simp [ForkChoiceState.insertBlock, hlast]
    rw [show min 256 255 = 255 by omega, hsame]
    exact h

/-- The first 255 blocks fit and the next one wraps around: it is valid and stored, it scores
nothing, and the best tip stays where it was. -/
theorem block_256_scores_nothing :
    tall.validate = .ok () ∧
      (tallState 256).look (blockHash tallHash (tallBlock 255)) = some (tallNode 255) ∧
      (tallState 256).look (tallNode 255).parent = some (tallNode 254) ∧
      (tallNode 254).workScore + configuredBlockWorkScore tall.difficultyZeroBits = 2 ^ 128 ∧
      (tallNode 255).workScore = 0 ∧ isBetterTip (tallNode 255) (tallNode 254) = false ∧
      (tallState 256).bestTip = some (blockHash tallHash (tallBlock 254)) ∧
      ¬ WorkAddsUp (tallState 256) := by
  have h := tallState_holds (n := 256) (by norm_num)
  have htip := Holds.bestTip h (le_refl 255)
  rw [show min 255 254 = 254 by omega] at htip
  have hlast := h.known 255 (by omega)
  have hparent := h.known 254 (by omega)
  have hscore := tallNode_workScore (n := 254) (by omega)
  have haccepted : tall.validate = .ok () := by decide
  have hsum : (tallNode 254).workScore + configuredBlockWorkScore tall.difficultyZeroBits =
      2 ^ 128 := by
    rw [hscore]
    rfl
  have hworse : isBetterTip (tallNode 255) (tallNode 254) = false := by
    have hpos : 0 < (254 + 1) * 2 ^ 120 := by norm_num
    rw [isBetterTip_eq_false, rank, rank, Prod.Lex.toLex_le_toLex, hscore, tallNode_wraps]
    exact .inl hpos
  refine ⟨haccepted, hlast, hparent, hsum, tallNode_wraps, hworse, htip, fun hwork => ?_⟩
  have hgrows := hwork.grows _ _ _ hlast (blockHash_tall_ne_zero _) hparent
  rw [tallNode_wraps] at hgrows
  omega

end Chesscoin.WorkScores

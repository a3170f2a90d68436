import Chesscoin.Exchange
import Chesscoin.Overlap
import Chesscoin.SyncBatch

/-!
Taking in a part of an honest peer's chain.

A block of the peer's chain is valid wherever its parent is known, because a parent gives its
child the same context in every tree. So a part of the chain can be taken in, block after block,
as soon as the block below it is known, and screening has seen to that: the first parent is on
the node's own chain. Afterwards the node knows what it knew and the blocks it was served.
-/

namespace Chesscoin.Catchup

open Chesscoin.Lib.Linked Chesscoin.Lib.Parting Chesscoin.Domain Chesscoin.Simulator
  Chesscoin.Validation Chesscoin.ForkChoice Chesscoin.ForkTree Chesscoin.ForkInvariant
  Chesscoin.Wire Chesscoin.Runtime Chesscoin.Runs Chesscoin.ActiveView Chesscoin.Locator
  Chesscoin.Screening Chesscoin.SyncBatch Chesscoin.Serving Chesscoin.Sync Chesscoin.Exchange
  Chesscoin.Overlap

variable {hasher : HashPort} {sampler : SamplingPort} {addr : AddrText} {B : Block → Prop}
  {fc fc' : ForkChoiceState} {blocks : List Block} {st p : NodeState}

/-! ### What a tree knows of a chain -/

/-- **Knowing a block of a chain is knowing the chain up to it.** -/
theorem branch_hashes (hown : OwnHashes hasher B) (h : Tree hasher sampler fc)
    (hknown : ∀ k n, fc.look k = some n → B n.block)
    (hreplayed : Replayed hasher sampler fc.config blocks) (hB : ∀ b ∈ blocks, B b) {i : ℕ}
    {b : Block} (hb : blocks[i]? = some b) {l : List ForkNode}
    (hl : Branch Digest.zero ForkNode.parent fc.look (blockHash hasher b) l) :
    l.length = i + 1 ∧ (l.map (·.block)).map (blockHash hasher) =
      (blocks.map (blockHash hasher)).take (i + 1) := by
  obtain ⟨n, hn, hreplay, -⟩ := h.replay_branch hl
  have hlB : ∀ b ∈ l.map (·.block), B b := by
    intro b hb
    obtain ⟨m, hm, rfl⟩ := List.mem_map.mp hb
    obtain ⟨k, hk⟩ := hl.stored m hm
    exact hknown k m hk
  have hparts := replayed_parts hown (replayed_of_chainFromBlocks hreplay) hreplayed hlB hB
  have hpos : 0 < l.length := List.length_pos_of_ne_nil hl.ne_nil
  have hlast : ((l.map (·.block)).map (blockHash hasher))[l.length - 1]? =
      some (blockHash hasher b) := by
    have hend := branch_last h hl
    rwa [← List.getLast?_map, List.getLast?_eq_getElem?, List.length_map, List.length_map] at hend
  obtain ⟨hi, htake⟩ := hparts _ i _ hlast (getElem?_hash.mpr ⟨b, hb, rfl⟩)
  have hlen : l.length = i + 1 := by omega
  refine ⟨hlen, ?_⟩
  rw [List.take_add_one, ← hi, ← htake, getElem?_hash.mpr ⟨b, hi ▸ hb, rfl⟩, ← hlast,
    ← List.take_add_one, Nat.sub_add_cancel hpos]
  exact (List.take_of_length_le (by simp)).symm

lemma known_before (hown : OwnHashes hasher B) (h : Tree hasher sampler fc)
    (hknown : ∀ k n, fc.look k = some n → B n.block)
    (hreplayed : Replayed hasher sampler fc.config blocks) (hB : ∀ b ∈ blocks, B b) {i j : ℕ}
    {a b : Block} (ha : blocks[j]? = some a) (hb : blocks[i]? = some b) (hle : j ≤ i)
    (hcontains : fc.containsBlock (blockHash hasher b) = true) :
    fc.containsBlock (blockHash hasher a) = true := by
  obtain ⟨n, hn⟩ := (containsBlock_iff _).mp hcontains
  obtain ⟨l, hl⟩ := h.rooted _ n hn
  obtain ⟨-, hhashes⟩ := branch_hashes hown h hknown hreplayed hB hb hl
  have hget : ((l.map (·.block)).map (blockHash hasher))[j]? = some (blockHash hasher a) := by
    rw [hhashes, List.getElem?_take, if_pos (by omega), getElem?_hash]
    exact ⟨a, ha, rfl⟩
  obtain ⟨c, hc, hhash⟩ := getElem?_hash.mp hget
  obtain ⟨m, hm, rfl⟩ := List.mem_map.mp (List.mem_of_getElem? hc)
  obtain ⟨k, hk⟩ := hl.stored m hm
  rw [← hhash, (h.stored k m hk).keyed]
  exact (containsBlock_iff _).mpr ⟨m, hk⟩

/-- The tip of a tree is not worse than any node of it. -/
lemma tip_not_worse (h : Tree hasher sampler fc) {k : Digest}
    {n : ForkNode} (hk : fc.look k = some n) :
    ∃ best, fc.bestTip.bind fc.look = some best ∧ isBetterTip n best = false := by
  have hbest := h.best
  cases htip : fc.bestTip with
  | none =>
    rw [htip] at hbest
    rw [hbest] at hk
    cases hk
  | some tip =>
    rw [htip] at hbest
    obtain ⟨best, hlook, hmax⟩ := hbest
    exact ⟨best, hlook, (isBetterTip_eq_false n best).mpr (hmax k n hk)⟩

/-! ### Insertion -/

/-- What a tree holds once a batch has gone in: what it held and the blocks of the batch. -/
structure TakenIn (hasher : HashPort) (sampler : SamplingPort) (B : Block → Prop)
    (fc fc' : ForkChoiceState) (blocks : List Block) : Prop where
  tree : Tree hasher sampler fc'
  config : fc'.config = fc.config
  known : ∀ k n, fc'.look k = some n → B n.block
  keeps : Extends fc.look fc'.look
  contains : ∀ b ∈ blocks, fc'.containsBlock (blockHash hasher b) = true
  only : ∀ k n, fc'.look k = some n → fc.look k = some n ∨ ∃ b ∈ blocks, blockHash hasher b = k

theorem insertBatch_takenIn (h : Tree hasher sampler fc)
    (hknown : ∀ k n, fc.look k = some n → B n.block) (hB : ∀ b ∈ blocks, B b)
    (hins : insertBatch hasher sampler fc blocks = .ok fc') :
    TakenIn hasher sampler B fc fc' blocks := by
  have hkeeps := insertBatch_extends hins
  have hcontains := insertBatch_contains hins
  induction blocks generalizing fc with
  | nil =>
    cases hins
    exact ⟨h, rfl, hknown, hkeeps, hcontains, fun k n hk => .inl hk⟩
  | cons b blocks ih =>
    rw [insertBatch] at hins
    split at hins
    · have hrest := ih h hknown (fun b hb => hB b (by simp [hb])) hins
        (insertBatch_extends hins) (insertBatch_contains hins)
      refine ⟨hrest.tree, hrest.config, hrest.known, hkeeps, hcontains, fun k n hk => ?_⟩
      rcases hrest.only k n hk with hold | ⟨a, ha, hhash⟩
      · exact .inl hold
      · exact .inr ⟨a, by simp [ha], hhash⟩
    · split at hins
      · cases hins
      · next hash fc₁ hone =>
        have htree := h.of_insertBlock hone
        have hrest := ih htree (known_of_insertBlock hone hknown (hB b (by simp)))
          (fun b hb => hB b (by simp [hb])) hins (insertBatch_extends hins)
          (insertBatch_contains hins)
        refine ⟨hrest.tree, hrest.config.trans (config_of_insertBlock hone), hrest.known, hkeeps,
          hcontains, fun k n hk => ?_⟩
        rcases hrest.only k n hk with hafter | ⟨a, ha, hhash⟩
        · rcases look_insertBlock_some hone hafter with hold | rfl
          · exact .inl hold
          · exact .inr ⟨n.block, by simp, (htree.stored k n hafter).keyed⟩
        · exact .inr ⟨a, by simp [ha], hhash⟩

/-- **A block of a chain goes in where the block below it is known.** -/
theorem insert_next (hown : OwnHashes hasher B) (h : Tree hasher sampler fc)
    (hknown : ∀ k n, fc.look k = some n → B n.block)
    (hreplayed : Replayed hasher sampler fc.config blocks) (hB : ∀ b ∈ blocks, B b) {i : ℕ}
    {b : Block} (hb : blocks[i]? = some b)
    (hparent : prevHash hasher blocks i = Digest.zero ∨
      fc.containsBlock (prevHash hasher blocks i) = true) :
    ∃ fc', fc.insertBlock hasher sampler b = (.ok (blockHash hasher b), fc') := by
  rw [← hreplayed.previousBlock hb] at hparent
  obtain ⟨ctx, score, hctx⟩ := parentContext_of_known hparent
  have hvalid : Valid hasher sampler fc.config ctx b := by
    have hv := hreplayed i b hb
    have hcontext : (ChainState.mk fc.config (blocks.take i)).headContext hasher = ctx := by
      rcases parentContext_ok hctx with ⟨hz, rfl, -⟩ | ⟨hz, m, hm, rfl, -⟩
      · cases i with
        | zero => rfl
        | succ i =>
          obtain ⟨hlt, -⟩ := List.getElem?_eq_some_iff.mp hb
          have hbefore := List.getElem?_eq_getElem (Nat.lt_of_succ_lt hlt)
          rw [hreplayed.previousBlock hb, prevHash_succ hbefore] at hz
          exact absurd hz (hown.nonzero _ (hB _ (List.mem_of_getElem? hbefore)))
      · cases i with
        | zero => exact absurd (hreplayed.previousBlock hb) hz
        | succ i =>
          obtain ⟨hlt, -⟩ := List.getElem?_eq_some_iff.mp hb
          have hbefore := List.getElem?_eq_getElem (Nat.lt_of_succ_lt hlt)
          have hstored := h.stored _ m hm
          have hhash : blockHash hasher m.block = blockHash hasher blocks[i] := by
            rw [hstored.keyed, hreplayed.previousBlock hb, prevHash_succ hbefore]
          have hheader := hown.distinct m.block blocks[i] (hknown _ m hm)
            (hB _ (List.mem_of_getElem? hbefore)) hhash
          rw [List.take_add_one, hbefore, Option.toList_some, headContext_append,
            hstored.nextHeight, hstored.hash, hheader, hreplayed.height hbefore,
            ← hstored.keyed, hhash, List.length_take, min_eq_left (by omega)]
    rwa [hcontext] at hv
  rcases insertBlock_cases hasher sampler fc b with
    ⟨-, hr⟩ | ⟨e, -, hinvalid, -⟩ | ⟨ctx', score', -, -, -, hr⟩
  · exact ⟨fc, hr⟩
  · exact absurd hvalid (hinvalid ctx score hctx)
  · exact ⟨_, hr⟩

/-- **A part of a chain goes in** where the block below it is known. -/
theorem insertBatch_part (hown : OwnHashes hasher B) (h : Tree hasher sampler fc)
    (hknown : ∀ k n, fc.look k = some n → B n.block)
    (hreplayed : Replayed hasher sampler fc.config blocks) (hB : ∀ b ∈ blocks, B b) (s n : ℕ)
    (hparent : prevHash hasher blocks s = Digest.zero ∨
      fc.containsBlock (prevHash hasher blocks s) = true) :
    ∃ fc', insertBatch hasher sampler fc ((blocks.drop s).take n) = .ok fc' := by
  induction n generalizing s fc with
  | zero => exact ⟨fc, rfl⟩
  | succ n ih =>
    cases hb : blocks[s]? with
    | none =>
      rw [List.drop_eq_nil_of_le (List.getElem?_eq_none_iff.mp hb)]
      exact ⟨fc, rfl⟩
    | some b =>
      obtain ⟨hs, hget⟩ := List.getElem?_eq_some_iff.mp hb
      rw [List.drop_eq_getElem_cons hs, hget, List.take_succ_cons, insertBatch]
      split
      · next hc =>
        exact ih h hknown hreplayed (s + 1) (.inr (by rwa [prevHash_succ hb]))
      · obtain ⟨fc₁, hone⟩ := insert_next hown h hknown hreplayed hB hb hparent
        have hknown₁ := known_of_insertBlock hone hknown (hB b (List.mem_of_getElem? hb))
        have hself : fc₁.containsBlock (prevHash hasher blocks (s + 1)) = true := by
          rw [prevHash_succ hb]
          exact (containsBlock_iff _).mpr (look_insertBlock_self hone)
        have hreplayed₁ : Replayed hasher sampler fc₁.config blocks := by
          rwa [config_of_insertBlock hone]
        rw [hone]
        exact ih (h.of_insertBlock hone) hknown₁ hreplayed₁ (s + 1) (.inr hself)

/-! ### Settings -/

/-- What blocks do not change: the limits of a node and how it writes and reads. -/
def settings (st : NodeState) : Config.NetworkConfig × Config.SyncConfig := (st.network, st.sync)

lemma network_of_settings {network : Config.NetworkConfig} {sync : Config.SyncConfig}
    (h : settings st = (network, sync)) : st.network = network := congrArg Prod.fst h

lemma sync_of_settings {network : Config.NetworkConfig} {sync : Config.SyncConfig}
    (h : settings st = (network, sync)) : st.sync = sync := congrArg Prod.snd h

lemma settings_of_besides (h : besides st' = besides st) : settings st' = settings st := by
  have hsettings : settings (besides st') = settings (besides st) := congrArg settings h
  exact hsettings

lemma applyIncomingBlock_settings (block : Block) (source : BlockSource) (st : NodeState) :
    settings (applyIncomingBlock hasher sampler block source st).2 = settings st :=
  settings_of_besides (applyIncomingBlock_besides block source st)

lemma applyBatch_settings (blocks : List Block) (st : NodeState) :
    settings (applyBatch hasher sampler blocks st).2 = settings st :=
  settings_of_besides (applyBatch_besides blocks st)

/-! ### A batch -/

lemma Active.config (h : Active hasher sampler B st) : st.chain.config = st.forkChoice.config := by
  rw [h.chain]
  rfl

/-- A batch that can be inserted is taken in as a whole. -/
theorem settle_complete (hown : OwnHashes hasher B) (h : Active hasher sampler B st)
    {trial : ForkChoiceState} (hB : ∀ b ∈ blocks, B b)
    (hins : insertBatch hasher sampler st.forkChoice blocks = .ok trial) :
    validateSyncBatch hasher sampler blocks st = .ok () ∧
      ∃ st', applyBatch hasher sampler blocks st = (.ok (), st') ∧
        settleAnswer hasher sampler (.complete blocks) st = (.ok (), st') ∧
        st'.forkChoice = trial ∧ Active hasher sampler B st' ∧ settings st' = settings st := by
  have htaken := insertBatch_takenIn h.tree h.known hB hins
  have hvalidate : validateSyncBatch hasher sampler blocks st = .ok () := by
    simp only [validateSyncBatch, hins, chainFromBlocks_bestChain htaken.tree]
  obtain ⟨st', happly, hfc⟩ := applyBatch_of_insertBatch hins
  have hsettle : settleAnswer hasher sampler (.complete blocks) st = (.ok (), st') := by
    simp only [settleAnswer, hvalidate, happly]
  have hactive : Active hasher sampler B st' := by
    have hstep : Step hasher sampler B st
        (settleAnswer hasher sampler (.complete blocks) st).2 := .batch _ hB
    rw [hsettle] at hstep
    exact h.run hown.nonzero (.single hstep)
  have hsettings : settings (applyBatch hasher sampler blocks st).2 = settings st :=
    applyBatch_settings blocks st
  rw [happly] at hsettings
  exact ⟨hvalidate, st', happly, hsettle, hfc, hactive, hsettings⟩

/-- A batch of known blocks changes nothing. -/
lemma insertBatch_known (h : ∀ b ∈ blocks, fc.containsBlock (blockHash hasher b) = true) :
    insertBatch hasher sampler fc blocks = .ok fc := by
  induction blocks with
  | nil => rfl
  | cons b blocks ih =>
    rw [insertBatch, if_pos (h b (by simp))]
    exact ih fun b hb => h b (by simp [hb])

/-! ### Screened headers -/

/-- **Screening looks for the parent**: what has passed stands on a known block, or on none. -/
theorem parent_known_of_screened (h : Active hasher sampler B st)
    (hreplayed : Replayed hasher sampler st.chain.config blocks) {locator : List Digest}
    {s n : ℕ} (hne : (blocks.drop s).take n ≠ [])
    (hscreen : validateHeadersAfterLocator hasher st.chain locator
      (((blocks.drop s).take n).map (·.header)) = .ok ()) :
    prevHash hasher blocks s = Digest.zero ∨
      st.forkChoice.containsBlock (prevHash hasher blocks s) = true := by
  rw [validate_served hreplayed rfl hne] at hscreen
  cases hstart : expectedStart hasher st.chain locator (prevHash hasher blocks s) with
  | error e =>
    rw [hstart] at hscreen
    cases hscreen
  | ok height =>
    unfold expectedStart at hstart
    split at hstart
    · next hz => exact .inl hz
    · split at hstart
      · cases hstart
      · split at hstart
        · cases hstart
        · next i hi =>
          obtain ⟨hlt, hbeq, -⟩ := List.findIdx?_eq_some_iff_getElem.mp hi
          have hmem : prevHash hasher blocks s ∈ st.chain.blocks.map (blockHash hasher) := by
            rw [← beq_iff_eq.mp hbeq]
            exact List.getElem_mem hlt
          obtain ⟨b, hb, hhash⟩ := List.mem_map.mp hmem
          rw [h.chain] at hb
          rw [← hhash]
          exact .inr (bestChain_contains h.tree b hb)

/-! ### One sync -/

/-- The blocks served are a part of the active chain. -/
lemma served_part (p : NodeState) (locator : List Digest) (limit : ℕ) :
    served hasher p locator limit =
      (p.chain.blocks.drop (leadsTo hasher p.chain.blocks locator)).take
        (min limit p.sync.maxBlocksPerResponse) := rfl

lemma served_known (hp : Active hasher sampler B p) (locator : List Digest) (limit : ℕ) :
    ∀ b ∈ served hasher p locator limit, B b := fun b hb =>
  Active.chain_known hp b (List.mem_of_mem_drop (List.mem_of_mem_take hb))

/-- **What has been screened is taken in.** -/
theorem sync_screened (hown : OwnHashes hasher B) (hst : Active hasher sampler B st)
    (hp : Active hasher sampler B p) (hconfig : p.chain.config = st.chain.config)
    (h : Undisturbed addr st p) (hw : WithinLimits st p) {locator : List Digest} {limit : ℕ}
    (hloc : locator.length ≤ st.sync.maxLocatorHashes)
    (hlimit : limit ≤ st.sync.maxBlocksPerResponse)
    (hscreen : validateHeadersAfterLocator hasher st.chain locator
      ((served hasher p locator limit).map (·.header)) = .ok ()) :
    ∃ st', syncFromPeer hasher sampler addr (honestPeer hasher sampler addr p) locator limit st =
        (.ok (), st') ∧ Active hasher sampler B st' ∧ settings st' = settings st ∧
      TakenIn hasher sampler B st.forkChoice st'.forkChoice (served hasher p locator limit) := by
  have hB := served_known hp locator limit
  rw [syncFromPeer_screened h hw hloc hlimit hscreen]
  split
  · have hreplayed : Replayed hasher sampler st.chain.config p.chain.blocks := by
      rw [← hconfig]
      exact Active.replayed hp
    have hins : ∃ trial, insertBatch hasher sampler st.forkChoice (served hasher p locator limit) =
        .ok trial := by
      by_cases hne : served hasher p locator limit = []
      · rw [hne]
        exact ⟨_, rfl⟩
      · have hparent := parent_known_of_screened hst hreplayed hne hscreen
        rw [Active.config hst] at hreplayed
        exact insertBatch_part hown hst.tree hst.known hreplayed (Active.chain_known hp) _ _ hparent
    obtain ⟨trial, hins⟩ := hins
    obtain ⟨-, st', -, hsettle, hfc, hactive, hsettings⟩ := settle_complete hown hst hB hins
    refine ⟨st', hsettle, hactive, hsettings, ?_⟩
    rw [hfc]
    exact insertBatch_takenIn hst.tree hst.known hB hins
  · next hnone =>
    have hknown : ∀ b ∈ served hasher p locator limit,
        st.forkChoice.containsBlock (blockHash hasher b) = true := by
      simpa using hnone
    exact ⟨st, rfl, hst, rfl, insertBatch_takenIn hst.tree hst.known hB (insertBatch_known hknown)⟩

end Chesscoin.Catchup

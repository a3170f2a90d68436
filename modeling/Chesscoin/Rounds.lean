import Chesscoin.Catchup
import Chesscoin.Delivery
import Chesscoin.WorkScores

/-!
One round with a better peer.

The locator of a node leads its peer to the point where their chains part, and the peer serves
the blocks after it. Whether the node gets anything new is decided by the last of them: a node
that knows a block knows all blocks below it. With a better peer the last block of the chain is
new, but a node may hold the beginning of the better chain on a side branch. When all the peer
may serve at once is on that branch, the round ends well and brings nothing, and so does every
round after it.
-/

namespace Chesscoin.Rounds

open Chesscoin.Lib.ByteString Chesscoin.Lib.Linked Chesscoin.Lib.Parting Chesscoin.Domain
  Chesscoin.Simulator Chesscoin.Validation Chesscoin.Mining Chesscoin.ForkChoice
  Chesscoin.ForkTree Chesscoin.ForkInvariant Chesscoin.Wire Chesscoin.Config Chesscoin.Runtime
  Chesscoin.Runs Chesscoin.ActiveView Chesscoin.WorkScores Chesscoin.Locator Chesscoin.Screening
  Chesscoin.Serving Chesscoin.Sync Chesscoin.Exchange Chesscoin.Delivery Chesscoin.Overlap
  Chesscoin.Catchup Chesscoin.Adapters

variable {hasher : HashPort} {sampler : SamplingPort} {addr : AddrText} {B : Block → Prop}
  {fc : ForkChoiceState} {blocks : List Block} {st p : NodeState}

/-! ### Ranks along a chain -/

/-- The rank of a block that ends a chain of `length` blocks. -/
def rankAt (config : ChainConfig) (length : ℕ) (hash : Digest) : ℕ ×ₗ ℕ ×ₗ ℕ :=
  toLex (length * worth config % 2 ^ 128, toLex ((UInt64.ofNat length).toNat, be hash.bytes))

/-- Among short chains the longer one ranks higher. -/
lemma rankAt_lt {config : ChainConfig} {m n : ℕ} (hlt : m < n) (hroom : n < room config)
    (a b : Digest) : rankAt config m a < rankAt config n b := by
  have hm := lt_room_iff.mp (hlt.trans hroom)
  have hn := lt_room_iff.mp hroom
  rw [rankAt, rankAt, Prod.Lex.toLex_lt_toLex, Nat.mod_eq_of_lt hm, Nat.mod_eq_of_lt hn]
  exact .inl (Nat.mul_lt_mul_of_pos_right hlt (blockWorkScore_pos _))

lemma rank_branch (h : Tree hasher sampler fc) {k : Digest} {l : List ForkNode} {n : ForkNode}
    (hb : Branch Digest.zero ForkNode.parent fc.look k l) (hk : fc.look k = some n) :
    rank n = rankAt fc.config l.length k := by
  have hheight := branch_length h hb hk
  rw [List.length_map] at hheight
  rw [rank, rankAt, workScore_mod h hb hk, ← hheight, (h.stored k n hk).hash]

/-- A block of a chain has the same rank in every tree that holds it. -/
theorem rank_on_chain (hown : OwnHashes hasher B) (h : Tree hasher sampler fc)
    (hknown : ∀ k n, fc.look k = some n → B n.block)
    (hreplayed : Replayed hasher sampler fc.config blocks) (hB : ∀ b ∈ blocks, B b) {i : ℕ}
    {b : Block} (hb : blocks[i]? = some b) {n : ForkNode}
    (hk : fc.look (blockHash hasher b) = some n) :
    rank n = rankAt fc.config (i + 1) (blockHash hasher b) := by
  obtain ⟨l, hl⟩ := h.rooted _ n hk
  rw [rank_branch h hl hk, (branch_hashes hown h hknown hreplayed hB hb hl).1]

/-- A better tip ranks above every node. -/
lemma lt_of_shouldUpdate (h : Tree hasher sampler fc) {tip : ForkNode}
    (hbetter : fc.shouldUpdate tip = true) {k : Digest} {n : ForkNode}
    (hk : fc.look k = some n) : rank n < rank tip := by
  have hbest := h.best
  unfold ForkChoiceState.shouldUpdate at hbetter
  cases htip : fc.bestTip with
  | none =>
    rw [htip] at hbest
    rw [hbest] at hk
    cases hk
  | some head =>
    rw [htip] at hbest hbetter
    obtain ⟨best, hlook, hmax⟩ := hbest
    rw [Option.bind_some, hlook] at hbetter
    exact lt_of_le_of_lt (hmax k n hk) ((isBetterTip_iff tip best).mp hbetter)

/-- The tip of a node ends its active chain. -/
lemma tip_on_chain (h : Active hasher sampler B p) {tip : ForkNode}
    (htip : p.forkChoice.bestTip.bind p.forkChoice.look = some tip) :
    ∃ b, p.chain.blocks[p.chain.blocks.length - 1]? = some b ∧ 0 < p.chain.blocks.length ∧
      rank tip = rankAt p.forkChoice.config p.chain.blocks.length (blockHash hasher b) := by
  obtain ⟨head, hhead, hlook⟩ := Option.bind_eq_some_iff.mp htip
  obtain ⟨l, hl⟩ := h.tree.rooted head tip hlook
  have hchain : p.chain.blocks = l.map (·.block) := by
    rw [h.chain]
    exact h.tree.bestChain_eq hhead hl
  have hlast : p.chain.blocks.getLast?.map (blockHash hasher) = some head := by
    rw [hchain]
    exact branch_last h.tree hl
  obtain ⟨b, hb, rfl⟩ := Option.map_eq_some_iff.mp hlast
  rw [List.getLast?_eq_getElem?] at hb
  have hpos : 0 < l.length := List.length_pos_of_ne_nil hl.ne_nil
  have hlen : p.chain.blocks.length = l.length := by rw [hchain, List.length_map]
  exact ⟨b, hb, hlen ▸ hpos, hlen ▸ rank_branch h.tree hl hlook⟩

/-- **The tip of a better peer is unknown.** -/
theorem tip_unknown (hown : OwnHashes hasher B) (hst : Active hasher sampler B st)
    (hp : Active hasher sampler B p) (hconfig : p.chain.config = st.chain.config)
    {tip : ForkNode} (htip : p.forkChoice.bestTip.bind p.forkChoice.look = some tip)
    (hbetter : st.forkChoice.shouldUpdate tip = true) :
    ∃ b, p.chain.blocks[p.chain.blocks.length - 1]? = some b ∧ 0 < p.chain.blocks.length ∧
      st.forkChoice.containsBlock (blockHash hasher b) = false := by
  obtain ⟨b, hb, hpos, hrank⟩ := tip_on_chain hp htip
  have hsame : p.forkChoice.config = st.forkChoice.config := by
    rw [← Active.config hp, hconfig, Active.config hst]
  have hreplayed : Replayed hasher sampler st.forkChoice.config p.chain.blocks := by
    rw [← Active.config hst, ← hconfig]
    exact Active.replayed hp
  refine ⟨b, hb, hpos, Bool.eq_false_iff.mpr fun hcontains => ?_⟩
  obtain ⟨n, hn⟩ := (containsBlock_iff _).mp hcontains
  have hlt := lt_of_shouldUpdate hst.tree hbetter hn
  rw [rank_on_chain hown hst.tree hst.known hreplayed (Active.chain_known hp) hb hn, hrank, hsame,
    Nat.sub_add_cancel hpos] at hlt
  exact lt_irrefl _ hlt

/-- The longer of two short chains has the better tip. -/
lemma better_of_longer (hst : Active hasher sampler B st) (hp : Active hasher sampler B p)
    (hconfig : p.chain.config = st.chain.config)
    (hlonger : st.chain.blocks.length < p.chain.blocks.length)
    (hroom : p.chain.blocks.length < room p.chain.config) :
    ∃ tip, p.forkChoice.bestTip.bind p.forkChoice.look = some tip ∧
      st.forkChoice.shouldUpdate tip = true := by
  obtain ⟨tip, htip⟩ : ∃ tip, p.forkChoice.bestTip.bind p.forkChoice.look = some tip := by
    rcases hp.tree.walkBestChain with ⟨hnone, -⟩ | ⟨k, tip, -, hk, hlook, -⟩
    · have hempty : p.chain.blocks = [] := by
        rw [hp.chain]
        exact Tree.bestChain_nil hnone
      rw [hempty] at hlonger
      cases hlonger
    · exact ⟨tip, by rw [hk, Option.bind_some, hlook]⟩
  refine ⟨tip, htip, ?_⟩
  unfold ForkChoiceState.shouldUpdate
  split
  · rfl
  · next best hbest =>
    obtain ⟨b, -, -, hrank⟩ := tip_on_chain hp htip
    obtain ⟨a, -, -, hrank'⟩ := tip_on_chain hst hbest
    rw [isBetterTip_iff, hrank, hrank', ← Active.config hp, ← Active.config hst, ← hconfig]
    exact rankAt_lt hlonger hroom _ _

/-! ### Settings -/

lemma undisturbed_settings {st' : NodeState} (h : settings st' = settings st)
    (hpass : Undisturbed addr st p) : Undisturbed addr st' p := by
  have hnetwork : st'.network = st.network := congrArg Prod.fst h
  have hsync : st'.sync = st.sync := congrArg Prod.snd h
  refine ⟨?_, ?_, ?_, ?_, ?_⟩
  · rw [hnetwork, hsync]
    exact hpass.headersRequest
  · rw [hnetwork, hsync]
    exact hpass.blocksRequest
  · rw [hnetwork, hsync]
    exact hpass.headers
  · rw [hnetwork]
    exact hpass.blocks
  · rw [hnetwork]
    exact hpass.endBlocks

lemma within_settings {st' : NodeState} (h : settings st' = settings st)
    (hwithin : WithinLimits st p) : WithinLimits st' p := by
  have hsync : st'.sync = st.sync := congrArg Prod.snd h
  refine ⟨?_, ?_⟩
  · rw [hsync]
    exact hwithin.usize
  · rw [hsync]
    exact hwithin.locator

/-! ### Sight -/

/-- The locator of a node reaches below the point where its chain parts from the peer's, or to
the beginning. -/
def InSight (hasher : HashPort) (st p : NodeState) : Prop :=
  st.chain.blocks.length < st.sync.maxLocatorHashes ∨
    st.chain.blocks.length - st.sync.maxLocatorHashes <
      sharedLength hasher st.chain.blocks p.chain.blocks

lemma active_parts (hown : OwnHashes hasher B) (hst : Active hasher sampler B st)
    (hp : Active hasher sampler B p) (hconfig : p.chain.config = st.chain.config) :
    Parts (st.chain.blocks.map (blockHash hasher)) (p.chain.blocks.map (blockHash hasher)) := by
  have hreplayed := Active.replayed hp
  rw [hconfig] at hreplayed
  exact replayed_parts hown (Active.replayed hst) hreplayed (Active.chain_known hst)
    (Active.chain_known hp)

/-- A locator with the hash of a block on the peer's chain reaches below the point where the
chains part. -/
lemma sight_of_common (hown : OwnHashes hasher B) (hst : Active hasher sampler B st)
    (hp : Active hasher sampler B p) (hconfig : p.chain.config = st.chain.config)
    (hcommon : ∃ b ∈ p.chain.blocks,
      blockHash hasher b ∈ blockLocator hasher st.chain st.sync.maxLocatorHashes) :
    1 ≤ st.sync.maxLocatorHashes ∧ st.chain.blocks.length - st.sync.maxLocatorHashes <
      sharedLength hasher st.chain.blocks p.chain.blocks := by
  obtain ⟨b, hb, hmem⟩ := hcommon
  rcases mem_blockLocator hmem with ⟨hz, -⟩ | ⟨a, ha, hhash⟩
  · exact absurd hz (hown.nonzero b (Active.chain_known hp b hb))
  · rw [reverse_take, List.mem_reverse] at ha
    obtain ⟨i, hi⟩ := List.mem_iff_getElem?.mp ha
    rw [List.getElem?_drop] at hi
    obtain ⟨hlen, -⟩ := List.getElem?_eq_some_iff.mp hi
    have hlt := ((active_parts hown hst hp hconfig).mem_iff (getElem?_hash.mpr ⟨a, hi, rfl⟩)).mp
      (List.mem_map.mpr ⟨b, hb, hhash.symm⟩)
    have hshared : st.chain.blocks.length - st.sync.maxLocatorHashes + i <
        sharedLength hasher st.chain.blocks p.chain.blocks := hlt
    omega

/-- The blocks below the point where the chains part are known. -/
lemma shared_known (hst : Active hasher sampler B st) {i : ℕ} {b : Block}
    (hi : i < sharedLength hasher st.chain.blocks p.chain.blocks)
    (hb : p.chain.blocks[i]? = some b) :
    st.forkChoice.containsBlock (blockHash hasher b) = true := by
  obtain ⟨a, ha, hhash⟩ := exists_shared hi hb
  have hmem : a ∈ st.forkChoice.bestChain := by
    have hmem := List.mem_of_getElem? ha
    rwa [hst.chain] at hmem
  rw [← hhash]
  exact bestChain_contains hst.tree a hmem

/-! ### One round -/

/-- What a peer serves after the point where the chains part. -/
def window (hasher : HashPort) (st p : NodeState) : List Block :=
  (p.chain.blocks.drop (sharedLength hasher st.chain.blocks p.chain.blocks)).take
    (min st.sync.maxBlocksPerResponse p.sync.maxBlocksPerResponse)

lemma served_inSight (hown : OwnHashes hasher B) (hst : Active hasher sampler B st)
    (hp : Active hasher sampler B p) (hconfig : p.chain.config = st.chain.config)
    (hsight : InSight hasher st p) :
    served hasher p (blockLocator hasher st.chain st.sync.maxLocatorHashes)
      st.sync.maxBlocksPerResponse = window hasher st p := by
  rw [served_part, leadsTo_blockLocator st.chain _ (active_parts hown hst hp hconfig)
    (fun b hb => hown.nonzero b (Active.chain_known hst b hb)), window]
  split
  · rfl
  · next hout =>
    have hzero : sharedLength hasher st.chain.blocks p.chain.blocks = 0 := by
      rcases hsight with hshort | hlt
      · omega
      · exact absurd hlt hout
    rw [hzero]

/-- What is in sight passes screening. -/
lemma screened_inSight (hown : OwnHashes hasher B) (hst : Active hasher sampler B st)
    (hp : Active hasher sampler B p) (hconfig : p.chain.config = st.chain.config)
    (hmax : 1 ≤ st.sync.maxLocatorHashes) (hsight : InSight hasher st p) :
    validateHeadersAfterLocator hasher st.chain
      (blockLocator hasher st.chain st.sync.maxLocatorHashes)
      ((served hasher p (blockLocator hasher st.chain st.sync.maxLocatorHashes)
        st.sync.maxBlocksPerResponse).map (·.header)) = .ok () := by
  have hreplayed := Active.replayed hp
  rw [hconfig] at hreplayed
  refine (accepted_iff hmax (Active.replayed hst) hreplayed
    (fun b hb => hown.nonzero b (Active.chain_known hst b hb))
    (fun b hb b' hb' => hown.distinct b b' (Active.chain_known hst b hb)
      (Active.chain_known hp b' hb'))).mpr ?_
  rintro ⟨⟨hlen, hout⟩, -, -⟩
  rcases hsight with hshort | hlt
  · omega
  · have hle : sharedLength hasher st.chain.blocks p.chain.blocks ≤ st.chain.blocks.length :=
      sharedLength_le_left _ _
    have hi : sharedLength hasher st.chain.blocks p.chain.blocks - 1 < st.chain.blocks.length := by
      omega
    -- the newest block of both chains is named
    refine hout st.chain.blocks[sharedLength hasher st.chain.blocks p.chain.blocks - 1] ?_ ?_
    · rw [reverse_take, List.mem_reverse, List.mem_drop_iff_getElem]
      refine ⟨sharedLength hasher st.chain.blocks p.chain.blocks - 1 -
        (st.chain.blocks.length - st.sync.maxLocatorHashes), by omega, ?_⟩
      congr 1
      omega
    · refine ((active_parts hown hst hp hconfig).mem_iff
        (getElem?_hash.mpr ⟨_, List.getElem?_eq_getElem hi, rfl⟩)).mpr ?_
      show _ < sharedLength hasher st.chain.blocks p.chain.blocks
      omega

lemma blockLocator_length (chain : ChainState) (maxHashes : ℕ) :
    (blockLocator hasher chain maxHashes).length ≤ maxHashes := by
  unfold blockLocator
  split
  · exact Nat.zero_le _
  · simp only
    split
    · next hlt =>
      rw [List.length_append, List.length_singleton]
      exact hlt.1
    · rw [List.length_map, List.length_take]
      exact min_le_left _ _

/-- **A round takes the window in.** -/
theorem syncRound_takes (hown : OwnHashes hasher B) (hst : Active hasher sampler B st)
    (hp : Active hasher sampler B p) (hconfig : p.chain.config = st.chain.config)
    (hpass : Undisturbed addr st p) (hwithin : WithinLimits st p)
    (hmax : 1 ≤ st.sync.maxLocatorHashes) (hsight : InSight hasher st p) :
    ∃ st', syncRound hasher sampler addr (honestPeer hasher sampler addr p) st = (.ok (), st') ∧
      Active hasher sampler B st' ∧ settings st' = settings st ∧
      TakenIn hasher sampler B st.forkChoice st'.forkChoice (window hasher st p) := by
  have hscreen := screened_inSight hown hst hp hconfig hmax hsight
  obtain ⟨st', hround, hactive, hsettings, htaken⟩ := sync_screened hown hst hp hconfig hpass
    hwithin (blockLocator_length _ _) le_rfl hscreen
  rw [served_inSight hown hst hp hconfig hsight] at htaken
  exact ⟨st', hround, hactive, hsettings, htaken⟩

/-! ### Progress -/

/-- The round ends well and a block is known afterwards that was not before. -/
def MakesProgress (hasher : HashPort) (sampler : SamplingPort) (addr : AddrText)
    (st p : NodeState) : Prop :=
  ∃ st', syncRound hasher sampler addr (honestPeer hasher sampler addr p) st = (.ok (), st') ∧
    ∃ k, st.forkChoice.containsBlock k = false ∧ st'.forkChoice.containsBlock k = true

/-- The last block of the window, or of a chain that ends in it, is new. -/
lemma new_in_window (hst : Active hasher sampler B st) {m : ℕ} {head : Block}
    (hcommon : 0 < sharedLength hasher st.chain.blocks p.chain.blocks)
    (hhead : p.chain.blocks[p.chain.blocks.length - 1]? = some head)
    (hpos : 0 < p.chain.blocks.length)
    (hunknown : st.forkChoice.containsBlock (blockHash hasher head) = false)
    (hlast : ∀ b, p.chain.blocks[sharedLength hasher st.chain.blocks p.chain.blocks + m - 1]? =
      some b → st.forkChoice.containsBlock (blockHash hasher b) = false) :
    ∃ i b, sharedLength hasher st.chain.blocks p.chain.blocks ≤ i ∧
      i < sharedLength hasher st.chain.blocks p.chain.blocks + m ∧
      p.chain.blocks[i]? = some b ∧
      st.forkChoice.containsBlock (blockHash hasher b) = false := by
  have hshared : ∀ {i b}, p.chain.blocks[i]? = some b →
      st.forkChoice.containsBlock (blockHash hasher b) = false →
      sharedLength hasher st.chain.blocks p.chain.blocks ≤ i := by
    intro i b hb hnew
    by_contra hlt
    rw [shared_known hst (not_le.mp hlt) hb] at hnew
    cases hnew
  cases hend : p.chain.blocks[sharedLength hasher st.chain.blocks p.chain.blocks + m - 1]? with
  | some b =>
    have hnew := hlast b hend
    have hlow := hshared hend hnew
    exact ⟨_, b, hlow, by omega, hend, hnew⟩
  | none =>
    have hshort := List.getElem?_eq_none_iff.mp hend
    have hlow := hshared hhead hunknown
    exact ⟨_, head, hlow, by omega, hhead, hunknown⟩

/-- **A round with a better peer makes progress exactly when the last block the peer may serve is
new**, or its chain ends before. -/
theorem round_makes_progress_iff (hasher : HashPort) (sampler : SamplingPort) (addr : AddrText)
    (B : Block → Prop) (hown : OwnHashes hasher B) (st p : NodeState)
    (hst : Reachable hasher sampler addr B st) (hp : Reachable hasher sampler addr B p)
    (hconfig : p.chain.config = st.chain.config) (hpass : Undisturbed addr st p)
    (hwithin : WithinLimits st p)
    (hlimit : st.sync.maxBlocksPerResponse ≤ p.sync.maxBlocksPerResponse)
    (hcommon : ∃ b ∈ p.chain.blocks,
      blockHash hasher b ∈ blockLocator hasher st.chain st.sync.maxLocatorHashes)
    (hbetter : ∃ tip, p.forkChoice.bestTip.bind p.forkChoice.look = some tip ∧
      st.forkChoice.shouldUpdate tip = true) :
    MakesProgress hasher sampler addr st p ↔
      ∀ b, p.chain.blocks[sharedLength hasher st.chain.blocks p.chain.blocks +
          st.sync.maxBlocksPerResponse - 1]? = some b →
        st.forkChoice.containsBlock (blockHash hasher b) = false := by
  have hst' := Reachable.active hst hown.nonzero
  have hp' := Reachable.active hp hown.nonzero
  have hreplayed : Replayed hasher sampler st.forkChoice.config p.chain.blocks := by
    rw [← Active.config hst', ← hconfig]
    exact Active.replayed hp'
  obtain ⟨hmax, hsight⟩ := sight_of_common hown hst' hp' hconfig hcommon
  obtain ⟨after, hround, -, -, htaken⟩ :=
    syncRound_takes hown hst' hp' hconfig hpass hwithin hmax (.inr hsight)
  rw [window, min_eq_left hlimit] at htaken
  constructor
  · -- a known block has known blocks below it
    rintro ⟨after', hround', k, hnew, hcontains⟩ b hb
    rw [hround] at hround'
    obtain rfl := (Prod.mk.inj hround').2
    obtain ⟨n, hn⟩ := (containsBlock_iff k).mp hcontains
    rcases htaken.only k n hn with hold | ⟨a, ha, rfl⟩
    · rw [(containsBlock_iff k).mpr ⟨n, hold⟩] at hnew
      cases hnew
    · obtain ⟨j, -, hhigh, hj⟩ := mem_part.mp ha
      refine Bool.eq_false_iff.mpr fun hlast => ?_
      rw [known_before hown hst'.tree hst'.known hreplayed (Active.chain_known hp') hj hb
        (by omega) hlast] at hnew
      cases hnew
  · intro hlast
    obtain ⟨tip, htip, hbest⟩ := hbetter
    obtain ⟨head, hhead, hpos, hunknown⟩ := tip_unknown hown hst' hp' hconfig htip hbest
    obtain ⟨i, b, hlow, hhigh, hb, hnew⟩ := new_in_window hst' (by omega) hhead hpos hunknown hlast
    exact ⟨after, hround, _, hnew, htaken.contains b (mem_part.mpr ⟨i, hlow, hhigh, hb⟩)⟩

/-! ### Kin -/

/-! A small family of blocks: one trunk, two blocks after it of which the left one wins, a block
after the right one, and a first block apart. -/

def childOf (parent : Block) (seed : UInt64) : Block :=
  candidate toyHash rivalConfig
    ⟨parent.header.height + 1, blockHash toyHash parent, parent.header.modelAfter⟩ seed 0 0

def trunk : Block := rival 1
def left : Block := childOf trunk 1
def right : Block := childOf trunk 2
def rightLeaf : Block := childOf right 1

/-- Another first block. -/
def stranger : Block := rival 2

def kin : List Block := [trunk, left, right, rightLeaf, stranger]

lemma kin_own : OwnHashes toyHash (· ∈ kin) := by
  refine ⟨?_, ?_⟩
  · have h : ∀ b ∈ kin, blockHash toyHash b ≠ Digest.zero := by decide +kernel
    exact h
  · have h : ∀ b ∈ kin, ∀ b' ∈ kin, blockHash toyHash b = blockHash toyHash b' →
        b.header = b'.header := by decide +kernel
    exact fun b b' hb hb' => h b hb b' hb'

/-- No message of a sync has an address in it. -/
def noAddr : AddrText := ⟨fun _ => [], fun _ => none⟩

def kinConfig (maxBlocks maxHashes : ℕ) : NodeConfig :=
  { NodeConfig.localhostEphemeral "node".toList with
    chain := rivalConfig
    sync := { SyncConfig.default with
      maxBlocksPerResponse := maxBlocks
      maxLocatorHashes := maxHashes } }

/-- A node that has been given blocks by gossip. -/
def kinNode (maxBlocks maxHashes : ℕ) (blocks : List Block) : NodeState :=
  blocks.foldl (fun st b => (applyIncomingBlock toyHash deterministicSampler b .gossip st).2)
    (initialState (kinConfig maxBlocks maxHashes) (.v4 0x7f000001 9333) none
      (ChainState.new rivalConfig, ForkChoiceState.new rivalConfig))

/-- The settings of the network they share. -/
def kinNetwork : NetworkConfig :=
  { NetworkConfig.default with
    wire := { WireConfig.default with chainFingerprint := chainFingerprint rivalConfig } }

/-- The envelope and the size limit of kin. -/
def SameLimits (network : NetworkConfig) : Prop :=
  network.wire = kinNetwork.wire ∧ network.maxMessageBytes = kinNetwork.maxMessageBytes

variable {maxBlocks maxHashes : ℕ}

lemma gossip_reachable (h : ∀ b ∈ blocks, B b) (hst : Reachable hasher sampler addr B st) :
    Reachable hasher sampler addr B (blocks.foldl
      (fun st b => (applyIncomingBlock hasher sampler b .gossip st).2) st) := by
  induction blocks generalizing st with
  | nil => exact hst
  | cons b blocks ih =>
    exact ih (fun b hb => h b (by simp [hb]))
      (Reachable.run hst (.single (.incoming b .gossip (h b (by simp)))))

lemma gossip_settings (blocks : List Block) (st : NodeState) :
    settings (blocks.foldl (fun st b => (applyIncomingBlock hasher sampler b .gossip st).2) st) =
      settings st := by
  induction blocks generalizing st with
  | nil => rfl
  | cons b blocks ih =>
    rw [List.foldl_cons, ih]
    exact applyIncomingBlock_settings b .gossip st

lemma kinNode_reachable (h : blocks ⊆ kin) :
    Reachable toyHash deterministicSampler addr (· ∈ kin)
      (kinNode maxBlocks maxHashes blocks) := by
  refine gossip_reachable (fun _ hb => h hb) ⟨_, ⟨rivalConfig, rfl, fun k n hk => ?_⟩, .refl⟩
  have hnone : (ForkChoiceState.new rivalConfig).look k = some n := hk
  rw [look_new] at hnone
  cases hnone

lemma kinNode_active (h : blocks ⊆ kin) :
    Active toyHash deterministicSampler (· ∈ kin) (kinNode maxBlocks maxHashes blocks) := by
  have hreach : Reachable toyHash deterministicSampler noAddr (· ∈ kin)
      (kinNode maxBlocks maxHashes blocks) := kinNode_reachable h
  exact Reachable.active hreach kin_own.nonzero

lemma kinNode_network (blocks : List Block) :
    (kinNode maxBlocks maxHashes blocks).network = kinNetwork :=
  congrArg Prod.fst (gossip_settings blocks _)

lemma kinNode_limits (blocks : List Block) :
    SameLimits (kinNode maxBlocks maxHashes blocks).network := by
  rw [kinNode_network]
  exact ⟨rfl, rfl⟩

lemma kinNode_sync (blocks : List Block) :
    (kinNode maxBlocks maxHashes blocks).sync = (kinConfig maxBlocks maxHashes).sync :=
  congrArg Prod.snd (gossip_settings blocks _)

/-- A few blocks get through with the default limits. -/
lemma few_undisturbed (hst : SameLimits st.network) (hp : SameLimits p.network)
    (hmax : st.sync.maxLocatorHashes ≤ 32)
    (hheaders : (p.chain.blocks.map fun b => (encodeHeader b.header).length + 1).sum ≤ 10000)
    (hblocks : ∀ b ∈ p.chain.blocks, (encodeBlock b).length ≤ 10000) :
    Undisturbed addr st p := by
  have henvelope : envelopeLength kinNetwork.wire ≤ 200 := by decide +kernel
  have hlimit : kinNetwork.maxMessageBytes = 1048576 := by decide
  have hascii : kinNetwork.wire.networkId.all (fun c => c.toNat < 128) = true := by decide
  have hone : OneNetwork rivalConfig st.network p.network := by
    refine ⟨hp.1.trans hst.1.symm, ?_, ?_, ?_⟩
    · rw [hst.1]
      rfl
    · rw [hst.1]
      exact fun c hc => by simpa using List.all_eq_true.mp hascii c hc
    · rw [hst.1]
      decide
  refine undisturbed_of_sizes hone ?_ ?_ fun b hb => ?_
  · rw [hst.1, hp.2, hlimit]
    omega
  · rw [hp.1, hst.2, hlimit]
    omega
  · have hlen := hblocks b hb
    rw [hp.1, hst.2, hlimit]
    omega

/-- The peer: the trunk, the right block and the one after it. -/
def ahead : NodeState := kinNode 1 32 [trunk, right, rightLeaf]

/-- Without the right block, the round brings it. -/
def behind : NodeState := kinNode 1 32 [trunk, left]

/-- With it on a side branch, and room for one block in an answer. -/
def stuck : NodeState := kinNode 1 32 [trunk, left, right]

lemma ahead_chain : ahead.chain = ⟨rivalConfig, [trunk, right, rightLeaf]⟩ := by decide +kernel

lemma behind_facts : behind.chain = ⟨rivalConfig, [trunk, left]⟩ ∧
    behind.forkChoice.containsBlock (blockHash toyHash right) = false := by
  decide +kernel

lemma stuck_facts : stuck.chain = ⟨rivalConfig, [trunk, left]⟩ ∧
    stuck.forkChoice.containsBlock (blockHash toyHash right) = true := by
  decide +kernel

lemma ahead_reachable : Reachable toyHash deterministicSampler addr (· ∈ kin) ahead :=
  kinNode_reachable (by simp [kin])

lemma ahead_within (blocks : List Block) : WithinLimits (kinNode 1 32 blocks) ahead :=
  ⟨by rw [kinNode_sync]; decide, by rw [ahead, kinNode_sync, kinNode_sync]⟩

lemma ahead_undisturbed (blocks : List Block) :
    Undisturbed addr (kinNode 1 32 blocks) ahead := by
  refine few_undisturbed (kinNode_limits _) (kinNode_limits _) ?_ ?_ ?_
  · rw [kinNode_sync]
    exact le_rfl
  · rw [ahead_chain]
    decide +kernel
  · rw [ahead_chain]
    decide +kernel

lemma ahead_better {blocks : List Block} (h : blocks ⊆ kin)
    (hchain : (kinNode 1 32 blocks).chain = ⟨rivalConfig, [trunk, left]⟩) :
    ∃ tip, ahead.forkChoice.bestTip.bind ahead.forkChoice.look = some tip ∧
      (kinNode 1 32 blocks).forkChoice.shouldUpdate tip = true := by
  have hst : Active toyHash deterministicSampler (· ∈ kin) (kinNode 1 32 blocks) :=
    kinNode_active h
  have hp : Active toyHash deterministicSampler (· ∈ kin) ahead := kinNode_active (by simp [kin])
  refine better_of_longer hst hp ?_ ?_ ?_
  · rw [ahead_chain, hchain]
  · rw [ahead_chain, hchain]
    decide
  · rw [ahead_chain]
    decide

/-- The locator of both nodes names the trunk. -/
lemma ahead_common {st : NodeState} (hchain : st.chain = ⟨rivalConfig, [trunk, left]⟩)
    (hmax : st.sync.maxLocatorHashes = 32) :
    ∃ b ∈ ahead.chain.blocks,
      blockHash toyHash b ∈ blockLocator toyHash st.chain st.sync.maxLocatorHashes := by
  rw [ahead_chain, hchain, hmax]
  refine ⟨trunk, List.mem_cons_self, newest_mem_blockLocator ?_⟩
  simp

/-- The right block is new, and the round makes progress. -/
theorem round_makes_progress_behind :
    MakesProgress toyHash deterministicSampler noAddr behind ahead := by
  have hmax : behind.sync.maxLocatorHashes = 32 := by
    rw [behind, kinNode_sync]
    rfl
  have hone : behind.sync.maxBlocksPerResponse = 1 := by
    rw [behind, kinNode_sync]
    rfl
  have hshared : sharedLength toyHash [trunk, left] [trunk, right, rightLeaf] = 1 := by
    decide +kernel
  refine (round_makes_progress_iff toyHash deterministicSampler noAddr (· ∈ kin) kin_own behind
    ahead (kinNode_reachable (by simp [kin])) ahead_reachable
    (by rw [ahead_chain, behind_facts.1]) (ahead_undisturbed _) (ahead_within _)
    (by rw [behind, ahead, kinNode_sync, kinNode_sync]) (ahead_common behind_facts.1 hmax)
    (ahead_better (by simp [kin]) behind_facts.1)).mpr fun b hb => ?_
  have hlast : [trunk, right, rightLeaf][1 + 1 - 1]? = some right := rfl
  simp only [behind_facts.1, ahead_chain, hone, hshared] at hb
  rw [hlast, Option.some.injEq] at hb
  rw [← hb]
  exact behind_facts.2

/-- **A better peer and no progress.** The peer may serve one block, the right one, which the node
has on a side branch: nothing is fetched, and the block after it never is. -/
theorem round_without_progress :
    validateNodeConfig noAddr (kinConfig 1 32) = .ok () ∧
      OwnHashes toyHash (· ∈ kin) ∧
      Reachable toyHash deterministicSampler noAddr (· ∈ kin) stuck ∧
      Reachable toyHash deterministicSampler noAddr (· ∈ kin) ahead ∧
      ahead.chain.config = stuck.chain.config ∧ ahead.sync = stuck.sync ∧
      Undisturbed noAddr stuck ahead ∧ WithinLimits stuck ahead ∧
      (∃ b ∈ ahead.chain.blocks,
        blockHash toyHash b ∈ blockLocator toyHash stuck.chain stuck.sync.maxLocatorHashes) ∧
      (∃ tip, ahead.forkChoice.bestTip.bind ahead.forkChoice.look = some tip ∧
        stuck.forkChoice.shouldUpdate tip = true) ∧
      syncRound toyHash deterministicSampler noAddr
        (honestPeer toyHash deterministicSampler noAddr ahead) stuck = (.ok (), stuck) ∧
      ¬ MakesProgress toyHash deterministicSampler noAddr stuck ahead := by
  have hmax : stuck.sync.maxLocatorHashes = 32 := by
    rw [stuck, kinNode_sync]
    rfl
  have hone : stuck.sync.maxBlocksPerResponse = 1 := by
    rw [stuck, kinNode_sync]
    rfl
  have hsame : ahead.sync = stuck.sync := by rw [ahead, stuck, kinNode_sync, kinNode_sync]
  have hserved : served toyHash ahead (blockLocator toyHash stuck.chain 32) 1 = [right] := by
    rw [served, hsame, hone, ahead_chain, stuck_facts.1]
    decide +kernel
  have hscreen : validateHeadersAfterLocator toyHash stuck.chain
      (blockLocator toyHash stuck.chain 32) ([right].map (·.header)) = .ok () := by
    rw [stuck_facts.1]
    decide +kernel
  have hpass : Undisturbed noAddr stuck ahead := ahead_undisturbed _
  have hwithin : WithinLimits stuck ahead := ahead_within _
  have hround : syncRound toyHash deterministicSampler noAddr
      (honestPeer toyHash deterministicSampler noAddr ahead) stuck = (.ok (), stuck) := by
    rw [syncRound, hmax, hone, syncFromPeer_screened hpass hwithin
      ((blockLocator_length _ _).trans hmax.ge) hone.ge (by rwa [hserved]), hserved]
    simp [stuck_facts.2]
  refine ⟨by decide +kernel, kin_own, kinNode_reachable (by simp [kin]), ahead_reachable,
    by rw [ahead_chain, stuck_facts.1], hsame, hpass, hwithin, ahead_common stuck_facts.1 hmax,
    ahead_better (by simp [kin]) stuck_facts.1, hround, ?_⟩
  rintro ⟨st', hround', k, hnew, hcontains⟩
  rw [hround] at hround'
  rw [← (Prod.mk.inj hround').2, hnew] at hcontains
  cases hcontains

end Chesscoin.Rounds

import Chesscoin.Heads
import Chesscoin.Passes
import Chesscoin.PeerSet

/-!
What a pass over honest peers can teach a node.

A call of a pass leaves the node as it is or brings it a block it did not know, whether its locator
is fresh or not, and brings it nothing that nobody knew. A fresh call to a peer with a better tip
always brings something, when answers have room for a locator and what it names is in sight. So a
pass that has taught nothing was made with a fresh locator throughout, and none of the peers that
were called has a better tip.
-/

namespace Chesscoin.Turns

open Chesscoin.Lib.Linked Chesscoin.Lib.Parting Chesscoin.Lib.Text
  Chesscoin.Domain Chesscoin.Simulator Chesscoin.Validation Chesscoin.ForkChoice
  Chesscoin.ForkTree Chesscoin.ForkInvariant Chesscoin.Wire Chesscoin.Runtime Chesscoin.Runs
  Chesscoin.ActiveView Chesscoin.WorkScores Chesscoin.Locator Chesscoin.Screening
  Chesscoin.Serving Chesscoin.Sync Chesscoin.Exchange Chesscoin.Overlap Chesscoin.Catchup
  Chesscoin.Rounds Chesscoin.Convergence Chesscoin.Passes Chesscoin.PeerSet Chesscoin.Heads
  Chesscoin.Adapters

variable {hasher : HashPort} {sampler : SamplingPort} {addr : AddrText} {B : Block → Prop}
  {fc : ForkChoiceState} {st st' p : NodeState}

/-! ### One call -/

/-- What is known of a node that has asked another for blocks: it is as it was, or it has taken in
blocks of the other's chain, and one of them was new. -/
structure Called (hasher : HashPort) (sampler : SamplingPort) (B : Block → Prop)
    (st p st' : NodeState) : Prop where
  active : Active hasher sampler B st'
  settings : settings st' = settings st
  config : st'.forkChoice.config = st.forkChoice.config
  keeps : Extends st.forkChoice.look st'.forkChoice.look
  only : ∀ k, st'.forkChoice.containsBlock k = true →
    st.forkChoice.containsBlock k = true ∨ p.forkChoice.containsBlock k = true
  idle : st' = st ∨ ∃ k, st.forkChoice.containsBlock k = false ∧
    st'.forkChoice.containsBlock k = true

lemma served_contains (hp : Active hasher sampler B p) {locator : List Digest} {limit : ℕ}
    {b : Block} (hb : b ∈ served hasher p locator limit) :
    p.forkChoice.containsBlock (blockHash hasher b) = true := by
  have hmem : b ∈ p.chain.blocks := List.mem_of_mem_drop (List.mem_of_mem_take hb)
  rw [hp.chain] at hmem
  exact bestChain_contains hp.tree b hmem

/-- **A call** with any locator that is not too long, be it an old one. -/
theorem call_called (hown : OwnHashes hasher B) (hst : Active hasher sampler B st)
    (h : Honest hasher sampler addr B st p) {locator : List Digest}
    (hloc : locator.length ≤ st.sync.maxLocatorHashes) :
    Called hasher sampler B st p (syncFromPeer hasher sampler addr
      (honestPeer hasher sampler addr p) locator st.sync.maxBlocksPerResponse st).2 := by
  have hnothing : Called hasher sampler B st p st :=
    ⟨hst, rfl, rfl, Extends.refl _, fun k hk => .inl hk, .inl rfl⟩
  cases hscreen : validateHeadersAfterLocator hasher st.chain locator
      ((served hasher p locator st.sync.maxBlocksPerResponse).map (·.header)) with
  | error e =>
    rw [syncFromPeer_refused h.pass h.within hloc le_rfl hscreen]
    exact hnothing
  | ok u =>
    obtain ⟨st', hcall, hactive, hsettings, htaken⟩ :=
      sync_screened hown hst h.active h.config h.pass h.within hloc le_rfl hscreen
    have hcases : syncFromPeer hasher sampler addr (honestPeer hasher sampler addr p) locator
        st.sync.maxBlocksPerResponse st = _ :=
      syncFromPeer_screened h.pass h.within hloc le_rfl hscreen
    rw [hcall]
    split at hcases
    · next hany =>
      obtain ⟨k, hk, hnew⟩ := List.any_eq_true.mp hany
      obtain ⟨b, hb, rfl⟩ := List.mem_map.mp hk
      refine ⟨hactive, hsettings, htaken.config, htaken.keeps, fun k hk => ?_,
        .inr ⟨_, by simpa using hnew, htaken.contains b hb⟩⟩
      obtain ⟨n, hn⟩ := (containsBlock_iff k).mp hk
      rcases htaken.only k n hn with hold | ⟨a, ha, rfl⟩
      · exact .inl ((containsBlock_iff k).mpr ⟨n, hold⟩)
      · exact .inr (served_contains h.active ha)
    · rw [hcall] at hcases
      rw [(Prod.mk.inj hcases).2]
      exact hnothing

/-- **A better peer has something new to serve** when what it may serve at once reaches above the
node's own chain. -/
theorem window_new (hown : OwnHashes hasher B) (hst : Active hasher sampler B st)
    (hp : Active hasher sampler B p) (hconfig : p.chain.config = st.chain.config)
    (hroom : p.chain.blocks.length < room st.chain.config)
    (hreach : st.chain.blocks.length < sharedLength hasher st.chain.blocks p.chain.blocks +
      min st.sync.maxBlocksPerResponse p.sync.maxBlocksPerResponse) {tip : ForkNode}
    (htip : p.forkChoice.bestTip.bind p.forkChoice.look = some tip)
    (hbetter : st.forkChoice.shouldUpdate tip = true) :
    ∃ b ∈ window hasher st p, st.forkChoice.containsBlock (blockHash hasher b) = false := by
  have hreplayed : Replayed hasher sampler st.forkChoice.config p.chain.blocks := by
    rw [← Active.config hst, ← hconfig]
    exact Active.replayed hp
  rw [Active.config hst] at hroom
  obtain ⟨head, hhead, hpos, hunknown⟩ := tip_unknown hown hst hp hconfig htip hbetter
  have hparted : sharedLength hasher st.chain.blocks p.chain.blocks < p.chain.blocks.length := by
    by_contra hge
    rw [shared_known hst (by omega) hhead] at hunknown
    cases hunknown
  have hleft : sharedLength hasher st.chain.blocks p.chain.blocks ≤ st.chain.blocks.length :=
    sharedLength_le_left _ _
  cases hlast : p.chain.blocks[sharedLength hasher st.chain.blocks p.chain.blocks +
      min st.sync.maxBlocksPerResponse p.sync.maxBlocksPerResponse - 1]? with
  | none =>
    -- the chain ends in the window, with its head
    have hend := List.getElem?_eq_none_iff.mp hlast
    exact ⟨head, mem_part.mpr ⟨_, by omega, by omega, hhead⟩, hunknown⟩
  | some b =>
    refine ⟨b, mem_part.mpr ⟨_, by omega, by omega, hlast⟩, Bool.eq_false_iff.mpr fun hknown => ?_⟩
    -- a known block up there would outrank the node's own tip
    obtain ⟨hlt, -⟩ := List.getElem?_eq_some_iff.mp hlast
    obtain ⟨n, hn⟩ := (containsBlock_iff _).mp hknown
    obtain ⟨best, hbest, hworse⟩ := tip_not_worse hst.tree hn
    obtain ⟨a, -, -, hrank⟩ := tip_on_chain hst hbest
    have hle := (isBetterTip_eq_false n best).mp hworse
    rw [rank_on_chain hown hst.tree hst.known hreplayed (Active.chain_known hp) hlast hn, hrank]
      at hle
    have hshort := length_le_of_rankAt (by omega) hle
    omega

/-- **A fresh call to a better peer** brings a block that was not known. -/
theorem call_learns (hown : OwnHashes hasher B) (hst : Active hasher sampler B st)
    (h : Honest hasher sampler addr B st p) (hmax : 1 ≤ st.sync.maxLocatorHashes)
    (hsight : InSight hasher st p) (hroom : p.chain.blocks.length < room st.chain.config)
    (hreach : st.chain.blocks.length < sharedLength hasher st.chain.blocks p.chain.blocks +
      min st.sync.maxBlocksPerResponse p.sync.maxBlocksPerResponse) {tip : ForkNode}
    (htip : p.forkChoice.bestTip.bind p.forkChoice.look = some tip)
    (hbetter : st.forkChoice.shouldUpdate tip = true) :
    ∃ k, st.forkChoice.containsBlock k = false ∧
      (syncFromPeer hasher sampler addr (honestPeer hasher sampler addr p)
        (blockLocator hasher st.chain st.sync.maxLocatorHashes) st.sync.maxBlocksPerResponse
          st).2.forkChoice.containsBlock k = true := by
  obtain ⟨b, hb, hnew⟩ := window_new hown hst h.active h.config hroom hreach htip hbetter
  obtain ⟨st', hround, -, -, htaken⟩ :=
    syncRound_takes hown hst h.active h.config h.pass h.within hmax hsight
  rw [syncRound] at hround
  exact ⟨_, hnew, by rw [hround]; exact htaken.contains b hb⟩

/-! ### One pass -/

variable {ι : Type*}

/-- What comes back from an address: what the node that listens there answers, if one does. -/
def dial (hasher : HashPort) (sampler : SamplingPort) (addr : AddrText)
    (listens : SocketAddr → Option ι) (nodes : ι → NodeState) (address : SocketAddr)
    (request : Str) : Option Stream :=
  (listens address).bind fun i => honestPeer hasher sampler addr (nodes i) request

variable {listens : SocketAddr → Option ι} {nodes : ι → NodeState} {locator : List Digest}

lemma dial_some {address : SocketAddr} {j : ι} (h : listens address = some j) :
    dial hasher sampler addr listens nodes address = honestPeer hasher sampler addr (nodes j) := by
  funext request
  rw [dial, h, Option.bind_some]

lemma syncFromPeer_unreached {address : SocketAddr} (h : listens address = none) (limit : ℕ) :
    syncFromPeer hasher sampler addr (dial hasher sampler addr listens nodes address) locator
      limit st = (.error (), st) := by
  simp [syncFromPeer, headersFromPeer, ask, dial, h]

/-- What is known of a node after calls to nodes of the network. -/
structure Passed (hasher : HashPort) (sampler : SamplingPort) (B : Block → Prop)
    (nodes : ι → NodeState) (st st' : NodeState) : Prop where
  active : Active hasher sampler B st'
  settings : settings st' = settings st
  config : st'.forkChoice.config = st.forkChoice.config
  keeps : Extends st.forkChoice.look st'.forkChoice.look
  only : ∀ k, st'.forkChoice.containsBlock k = true →
    st.forkChoice.containsBlock k = true ∨ ∃ j, (nodes j).forkChoice.containsBlock k = true

lemma Passed.of_untouched (hst : Active hasher sampler B st) (h : Untouched st st') :
    Passed hasher sampler B nodes st st' := by
  refine ⟨h.active hst, h.settings, congrArg ForkChoiceState.config h.forkChoice, ?_, ?_⟩
  · rw [h.forkChoice]
    exact Extends.refl _
  · rw [h.forkChoice]
    exact fun k hk => .inl hk

lemma Passed.trans {st'' : NodeState} (h : Passed hasher sampler B nodes st st')
    (h' : Passed hasher sampler B nodes st' st'') : Passed hasher sampler B nodes st st'' := by
  refine ⟨h'.active, h'.settings.trans h.settings, h'.config.trans h.config,
    h.keeps.trans h'.keeps, fun k hk => ?_⟩
  rcases h'.only k hk with hk | hj
  · exact h.only k hk
  · exact .inr hj

/-- The nodes that can be called, as a node sees them. -/
def AllHonest (hasher : HashPort) (sampler : SamplingPort) (addr : AddrText) (B : Block → Prop)
    (nodes : ι → NodeState) (st : NodeState) : Prop :=
  ∀ j, Honest hasher sampler addr B st (nodes j)

lemma Passed.allHonest (h : Passed hasher sampler B nodes st st') (hst : Active hasher sampler B st)
    (hall : AllHonest hasher sampler addr B nodes st) :
    AllHonest hasher sampler addr B nodes st' := by
  intro j
  refine (hall j).of_settings h.settings ?_
  rw [Active.config h.active, h.config, Active.config hst]

/-- One call, to an address where someone listens or not. -/
lemma dial_passed (hown : OwnHashes hasher B) (hst : Active hasher sampler B st)
    (hall : AllHonest hasher sampler addr B nodes st)
    (hloc : locator.length ≤ st.sync.maxLocatorHashes) (listens : SocketAddr → Option ι)
    (address : SocketAddr) :
    Passed hasher sampler B nodes st (syncFromPeer hasher sampler addr
        (dial hasher sampler addr listens nodes address) locator st.sync.maxBlocksPerResponse
          st).2 ∧
      ((syncFromPeer hasher sampler addr (dial hasher sampler addr listens nodes address) locator
          st.sync.maxBlocksPerResponse st).2 = st ∨
        ∃ k, st.forkChoice.containsBlock k = false ∧
          (syncFromPeer hasher sampler addr (dial hasher sampler addr listens nodes address)
            locator st.sync.maxBlocksPerResponse st).2.forkChoice.containsBlock k = true) := by
  cases hlisten : listens address with
  | none =>
    rw [syncFromPeer_unreached hlisten]
    exact ⟨.of_untouched hst ⟨rfl, rfl, rfl, rfl⟩, .inl rfl⟩
  | some j =>
    rw [dial_some hlisten]
    have h := call_called hown hst (hall j) hloc
    refine ⟨⟨h.active, h.settings, h.config, h.keeps, fun k hk => ?_⟩, h.idle⟩
    exact (h.only k hk).imp_right fun hk => ⟨j, hk⟩

/-- **The calls of a pass.** -/
theorem syncAll_passed (hown : OwnHashes hasher B) (listens : SocketAddr → Option ι)
    (peers : List SocketAddr)
    (hst : Active hasher sampler B st) (hall : AllHonest hasher sampler addr B nodes st)
    (hloc : locator.length ≤ st.sync.maxLocatorHashes) {limit : ℕ}
    (hlimit : limit = st.sync.maxBlocksPerResponse) :
    Passed hasher sampler B nodes st (syncAll hasher sampler addr
      (dial hasher sampler addr listens nodes) locator limit peers st).2 := by
  induction peers generalizing st with
  | nil => exact .of_untouched hst ⟨rfl, rfl, rfl, rfl⟩
  | cons address rest ih =>
    subst hlimit
    obtain ⟨hcall, -⟩ := dial_passed hown hst hall hloc listens address
    have hcount : Passed hasher sampler B nodes st _ := hcall.trans
      (.of_untouched hcall.active (countSync_untouched (syncFromPeer hasher sampler addr
        (dial hasher sampler addr listens nodes address) locator st.sync.maxBlocksPerResponse
          st).1 _))
    have hsync := congrArg Prod.snd hcount.settings
    exact hcount.trans (ih hcount.active (hcount.allHonest hst hall)
      (hloc.trans_eq (congrArg Config.SyncConfig.maxLocatorHashes hsync.symm))
      (congrArg Config.SyncConfig.maxBlocksPerResponse hsync.symm))

/-- The conditions under which a fresh call to a better peer is sure to bring something. -/
structure Sees (hasher : HashPort) (st p : NodeState) : Prop where
  sight : InSight hasher st p
  room : p.chain.blocks.length < room st.chain.config
  reach : st.chain.blocks.length < sharedLength hasher st.chain.blocks p.chain.blocks +
    min st.sync.maxBlocksPerResponse p.sync.maxBlocksPerResponse

lemma Sees.of_untouched (h : Sees hasher st p) (hsame : Untouched st st') :
    Sees hasher st' p := by
  obtain ⟨hsight, hroom, hreach⟩ := h
  have hsync : st'.sync = st.sync := congrArg Prod.snd hsame.settings
  refine ⟨?_, ?_, ?_⟩
  · rw [InSight, hsame.chain, hsync]
    exact hsight
  · rwa [hsame.chain]
  · rwa [hsame.chain, hsync]

/-- A better tip of a peer is one the node sees. -/
def SeesBetter (hasher : HashPort) (nodes : ι → NodeState) (st : NodeState) : Prop :=
  ∀ j tip, (nodes j).forkChoice.bestTip.bind (nodes j).forkChoice.look = some tip →
    st.forkChoice.shouldUpdate tip = true → Sees hasher st (nodes j)

lemma SeesBetter.of_untouched (h : SeesBetter hasher nodes st) (hsame : Untouched st st') :
    SeesBetter hasher nodes st' := by
  intro j tip htip hbetter
  rw [hsame.forkChoice] at hbetter
  exact (h j tip htip hbetter).of_untouched hsame

/-- A fresh call that teaches nothing: the node is as it was, and the other's tip is no better. -/
lemma call_quiet (hown : OwnHashes hasher B) (hst : Active hasher sampler B st)
    (hall : AllHonest hasher sampler addr B nodes st) (hmax : 1 ≤ st.sync.maxLocatorHashes)
    (hsees : SeesBetter hasher nodes st) (listens : SocketAddr → Option ι) (address : SocketAddr)
    (hquiet : ∀ k, (syncFromPeer hasher sampler addr
      (dial hasher sampler addr listens nodes address)
      (blockLocator hasher st.chain st.sync.maxLocatorHashes) st.sync.maxBlocksPerResponse
        st).2.forkChoice.containsBlock k = true → st.forkChoice.containsBlock k = true) :
    (syncFromPeer hasher sampler addr (dial hasher sampler addr listens nodes address)
      (blockLocator hasher st.chain st.sync.maxLocatorHashes) st.sync.maxBlocksPerResponse
        st).2 = st ∧
      ∀ j, listens address = some j → ∀ tip,
        (nodes j).forkChoice.bestTip.bind (nodes j).forkChoice.look = some tip →
          st.forkChoice.shouldUpdate tip = false := by
  obtain ⟨-, hsame | ⟨k, hnew, hlearnt⟩⟩ :=
    dial_passed hown hst hall (blockLocator_length _ _) listens address
  · refine ⟨hsame, fun j hlisten tip htip => Bool.eq_false_iff.mpr fun hbetter => ?_⟩
    obtain ⟨hsight, hroom, hreach⟩ := hsees j tip htip hbetter
    obtain ⟨k, hnew, hlearnt⟩ := call_learns hown hst (hall j) hmax hsight hroom hreach htip hbetter
    rw [dial_some hlisten] at hquiet
    rw [hquiet k hlearnt] at hnew
    cases hnew
  · rw [hquiet k hlearnt] at hnew
    cases hnew

/-- **Calls that teach nothing** leave the chains as they are, and none of those who were called
has a better tip. -/
theorem syncAll_quiet (hown : OwnHashes hasher B) (peers : List SocketAddr)
    (hst : Active hasher sampler B st) (hall : AllHonest hasher sampler addr B nodes st)
    (hmax : 1 ≤ st.sync.maxLocatorHashes) (hsees : SeesBetter hasher nodes st)
    (hlocator : locator = blockLocator hasher st.chain st.sync.maxLocatorHashes) {limit : ℕ}
    (hlimit : limit = st.sync.maxBlocksPerResponse)
    (hquiet : ∀ k, (syncAll hasher sampler addr (dial hasher sampler addr listens nodes) locator
      limit peers st).2.forkChoice.containsBlock k = true → st.forkChoice.containsBlock k = true) :
    Untouched st (syncAll hasher sampler addr (dial hasher sampler addr listens nodes) locator
        limit peers st).2 ∧
      ∀ address ∈ peers, ∀ j, listens address = some j → ∀ tip,
        (nodes j).forkChoice.bestTip.bind (nodes j).forkChoice.look = some tip →
          st.forkChoice.shouldUpdate tip = false := by
  induction peers generalizing st with
  | nil => exact ⟨⟨rfl, rfl, rfl, rfl⟩, fun _ h => absurd h List.not_mem_nil⟩
  | cons address rest ih =>
    have hloc : locator.length ≤ st.sync.maxLocatorHashes := by
      rw [hlocator]
      exact blockLocator_length _ _
    obtain ⟨hcall, -⟩ := dial_passed hown hst hall hloc listens address
    have hone := call_quiet hown hst hall hmax hsees listens address
    rw [← hlocator, ← hlimit] at hone
    rw [← hlimit] at hcall
    rw [syncAll] at hquiet ⊢
    generalize syncFromPeer hasher sampler addr (dial hasher sampler addr listens nodes address)
      locator limit st = r at hcall hone hquiet ⊢
    obtain ⟨result, st₁⟩ := r
    simp only at hcall hone hquiet ⊢
    have hcount : Untouched st₁ (countSync result st₁) := countSync_untouched result st₁
    have hcounted := hcall.trans (.of_untouched hcall.active hcount)
    have hsync : (countSync result st₁).sync = st.sync := congrArg Prod.snd hcounted.settings
    have hlimit' : limit = (countSync result st₁).sync.maxBlocksPerResponse := by
      rw [hlimit, hsync]
    have hafter := syncAll_passed hown listens rest hcounted.active
      (hcounted.allHonest hst hall) (hsync ▸ hloc) hlimit'
    obtain ⟨rfl, hnone⟩ := hone fun k hk =>
      hquiet k (containsBlock_mono hafter.keeps (by rwa [hcount.forkChoice]))
    have hlocator' : locator = blockLocator hasher (countSync result st₁).chain
        (countSync result st₁).sync.maxLocatorHashes := by
      rw [hlocator, hcount.chain, hsync]
    obtain ⟨hsame, hothers⟩ := ih hcounted.active (hcounted.allHonest hst hall) (hsync ▸ hmax)
      (hsees.of_untouched hcount) hlocator' hlimit' (by rwa [hcount.forkChoice])
    refine ⟨hcount.trans hsame, fun a ha => ?_⟩
    rcases List.mem_cons.mp ha with rfl | ha
    · exact hnone
    · rw [← hcount.forkChoice]
      exact hothers a ha

/-! ### Peers in a pass -/

lemma admits_peers {offers : List SocketAddr} (h : Admits st offers st') :
    st.peers <+: st'.peers := by
  have hpeers := congrArg Prod.fst h.ledger
  simp only [ledger] at hpeers
  rw [hpeers]
  exact Lib.Admission.admitAll_isPrefix (ledger st) offers

lemma syncFromPeer_admits (peer : Str → Option Stream) (locator : List Digest) (limit : ℕ)
    (st : NodeState) : Admits st [] (syncFromPeer hasher sampler addr peer locator limit st).2 := by
  unfold syncFromPeer
  split
  · exact .none rfl rfl
  · next headers _ =>
    simp only
    split
    · exact .none rfl rfl
    · split
      · have hsettle : ∃ answer, blocksFromPeer hasher sampler addr peer locator
            (headers.map (blockHeaderHash hasher)) st = settleAnswer hasher sampler answer st :=
          blocksFromPeer_eq_settle peer locator _ st
        obtain ⟨answer, hanswer⟩ := hsettle
        rw [hanswer]
        exact settleAnswer_admits answer st
      · exact .none rfl rfl

lemma countSync_admits (result : Except Unit Unit) (st : NodeState) :
    Admits st [] (countSync result st) := by
  cases result <;> exact .none rfl rfl

lemma exchangeAll_peers (net : SocketAddr → Str → Option Stream) (limit : ℕ)
    (peers : List SocketAddr) (st : NodeState) :
    st.peers <+: (exchangeAll addr net limit peers st).peers := by
  induction peers generalizing st with
  | nil => exact List.prefix_rfl
  | cons peer rest ih =>
    have hone : st.peers <+: (exchangePeersWith addr (net peer) limit st).2.peers := by
      unfold exchangePeersWith
      split
      · exact List.prefix_rfl
      · exact admits_peers (addPeers_admits _ st)
    exact (hone.trans (admits_peers (countSync_admits _ _))).trans (ih _)

lemma syncAll_peers (net : SocketAddr → Str → Option Stream) (locator : List Digest) (limit : ℕ)
    (peers : List SocketAddr) (st : NodeState) :
    st.peers <+: (syncAll hasher sampler addr net locator limit peers st).2.peers := by
  induction peers generalizing st with
  | nil => exact List.prefix_rfl
  | cons peer rest ih =>
    have hone : Admits st [] (syncFromPeer hasher sampler addr (net peer) locator limit st).2 :=
      syncFromPeer_admits (net peer) locator limit st
    exact ((admits_peers hone).trans (admits_peers (countSync_admits _ _))).trans (ih _)

/-- **A pass loses no peer**, whatever comes back. -/
theorem syncOnce_peers (net : SocketAddr → Str → Option Stream) (st : NodeState) :
    st.peers <+: (syncOnce hasher sampler addr net st).2.peers := by
  unfold syncOnce
  simp only
  split
  · exact List.prefix_rfl
  · exact (exchangeAll_peers _ _ _ st).trans (syncAll_peers _ _ _ _ _)

/-! ### A node's turn -/

lemma AllHonest.of_untouched (hall : AllHonest hasher sampler addr B nodes st)
    (hsame : Untouched st st') : AllHonest hasher sampler addr B nodes st' :=
  fun j => (hall j).of_settings hsame.settings (by rw [hsame.chain])

/-- **A pass over the network** brings a node only blocks that someone knew. -/
theorem syncOnce_passed (hown : OwnHashes hasher B) (listens : SocketAddr → Option ι)
    (hst : Active hasher sampler B st) (hall : AllHonest hasher sampler addr B nodes st) :
    Passed hasher sampler B nodes st (syncOnce hasher sampler addr
      (dial hasher sampler addr listens nodes) st).2 := by
  unfold syncOnce
  simp only
  split
  · exact .of_untouched hst ⟨rfl, rfl, rfl, rfl⟩
  · have hsame : Untouched st (exchangeAll addr (dial hasher sampler addr listens nodes)
        st.network.maxPeers st.peers st) := exchangeAll_untouched _ _ _ st
    have hsync := congrArg Prod.snd hsame.settings
    refine (Passed.of_untouched hst hsame).trans (syncAll_passed hown listens _
      (hsame.active hst) (hall.of_untouched hsame) ?_
      (congrArg Config.SyncConfig.maxBlocksPerResponse hsync.symm))
    exact (blockLocator_length _ _).trans_eq
      (congrArg Config.SyncConfig.maxLocatorHashes hsync.symm)

/-- **A pass that teaches nothing** leaves the chains as they are, and none of the node's peers
has a better tip. -/
theorem syncOnce_quiet (hown : OwnHashes hasher B) (listens : SocketAddr → Option ι)
    (hst : Active hasher sampler B st) (hall : AllHonest hasher sampler addr B nodes st)
    (hmax : 1 ≤ st.sync.maxLocatorHashes) (hsees : SeesBetter hasher nodes st)
    (hquiet : ∀ k, (syncOnce hasher sampler addr (dial hasher sampler addr listens nodes)
      st).2.forkChoice.containsBlock k = true → st.forkChoice.containsBlock k = true) :
    Untouched st (syncOnce hasher sampler addr (dial hasher sampler addr listens nodes) st).2 ∧
      ∀ address ∈ st.peers, ∀ j, listens address = some j → ∀ tip,
        (nodes j).forkChoice.bestTip.bind (nodes j).forkChoice.look = some tip →
          st.forkChoice.shouldUpdate tip = false := by
  unfold syncOnce at hquiet ⊢
  simp only at hquiet ⊢
  split
  · next hnone =>
    rw [hnone]
    exact ⟨⟨rfl, rfl, rfl, rfl⟩, fun _ h => absurd h List.not_mem_nil⟩
  · next hsome =>
    rw [if_neg hsome] at hquiet
    have hsame : Untouched st (exchangeAll addr (dial hasher sampler addr listens nodes)
        st.network.maxPeers st.peers st) := exchangeAll_untouched _ _ _ st
    have hpeers : st.peers ⊆ (exchangeAll addr (dial hasher sampler addr listens nodes)
        st.network.maxPeers st.peers st).peers := (exchangeAll_peers _ _ _ st).subset
    have hsync := congrArg Prod.snd hsame.settings
    generalize exchangeAll addr (dial hasher sampler addr listens nodes) st.network.maxPeers
      st.peers st = exchanged at hsame hpeers hquiet hsync ⊢
    have hlocator : blockLocator hasher st.chain st.sync.maxLocatorHashes =
        blockLocator hasher exchanged.chain exchanged.sync.maxLocatorHashes := by
      rw [hsame.chain]
      exact congrArg (blockLocator hasher st.chain)
        (congrArg Config.SyncConfig.maxLocatorHashes hsync.symm)
    obtain ⟨huntouched, hnone⟩ := syncAll_quiet hown exchanged.peers (hsame.active hst)
      (hall.of_untouched hsame)
      (hmax.trans_eq (congrArg Config.SyncConfig.maxLocatorHashes hsync.symm))
      (hsees.of_untouched hsame) hlocator
      (congrArg Config.SyncConfig.maxBlocksPerResponse hsync.symm)
      (by rwa [hsame.forkChoice])
    refine ⟨hsame.trans huntouched, fun address haddress j hlisten tip htip => ?_⟩
    rw [← hsame.forkChoice]
    exact hnone address (hpeers haddress) j hlisten tip htip

end Chesscoin.Turns

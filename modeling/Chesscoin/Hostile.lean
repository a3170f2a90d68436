import Chesscoin.Spreading

/-!
One honest peer among others that send what they like.

Whatever comes back from a peer, a call leaves the chains as they are or brings a block that was not
known. A call to an honest peer with a better tip brings one for sure, unless the locator has gone
stale, and it only goes stale when a call before it has brought one. So no pass that begins behind
the honest peer is in vain: others can hold a node back only by sending it blocks with work.
-/

namespace Chesscoin.Hostile

open Chesscoin.Lib.Linked Chesscoin.Lib.Text Chesscoin.Domain Chesscoin.Simulator
  Chesscoin.Validation Chesscoin.ForkChoice Chesscoin.ForkTree Chesscoin.Wire Chesscoin.Config
  Chesscoin.Runtime Chesscoin.Runs Chesscoin.ActiveView Chesscoin.Locator Chesscoin.Screening
  Chesscoin.Serving Chesscoin.Sync Chesscoin.Exchange Chesscoin.Overlap Chesscoin.Catchup
  Chesscoin.Rounds Chesscoin.Passes Chesscoin.Heads Chesscoin.Turns Chesscoin.Spreading
  Chesscoin.Adapters

variable {hasher : HashPort} {sampler : SamplingPort} {addr : AddrText} {B : Block → Prop}
  {st st' st'' p : NodeState} {home : SocketAddr} {net : SocketAddr → Str → Option Stream}

/-! ### Growth -/

/-- What is known of a node after a step: it has forgotten no block, and if it has learnt none, its
chains are as they were. -/
structure Grown (hasher : HashPort) (sampler : SamplingPort) (B : Block → Prop)
    (st st' : NodeState) : Prop where
  later : Later hasher sampler B st st'
  settings : settings st' = settings st
  idle : (st'.chain = st.chain ∧ st'.forkChoice = st.forkChoice) ∨
    ∃ k, st.forkChoice.containsBlock k = false ∧ st'.forkChoice.containsBlock k = true

lemma Grown.of_untouched (hst : Active hasher sampler B st) (h : Untouched st st') :
    Grown hasher sampler B st st' := by
  refine ⟨⟨h.active hst, ?_, by rw [h.forkChoice]⟩, h.settings, .inl ⟨h.chain, h.forkChoice⟩⟩
  rw [h.forkChoice]
  exact Extends.refl _

lemma Grown.learnt (h : Grown hasher sampler B st st') {k : Digest}
    (hk : st.forkChoice.containsBlock k = true) : st'.forkChoice.containsBlock k = true :=
  containsBlock_mono h.later.extends_ hk

lemma Grown.unknown (h : Grown hasher sampler B st st') {k : Digest}
    (hk : st'.forkChoice.containsBlock k = false) : st.forkChoice.containsBlock k = false :=
  Bool.eq_false_iff.mpr fun hold => by simp [h.learnt hold] at hk

lemma Grown.trans (h : Grown hasher sampler B st st') (h' : Grown hasher sampler B st' st'') :
    Grown hasher sampler B st st'' := by
  refine ⟨h.later.trans h'.later, h'.settings.trans h.settings, ?_⟩
  rcases h'.idle with ⟨hchain, hfc⟩ | ⟨k, hnew, hknown⟩
  · rw [hchain, hfc]
    exact h.idle
  · exact .inr ⟨k, h.unknown hnew, hknown⟩

lemma applyIncomingBlock_grown (hown : OwnHashes hasher B) (hst : Active hasher sampler B st)
    (source : BlockSource) {block : Block} (hB : B block) :
    Grown hasher sampler B st (applyIncomingBlock hasher sampler block source st).2 := by
  refine ⟨later_of_run hst hown.nonzero (.single (.incoming block source hB)),
    applyIncomingBlock_settings block source st, ?_⟩
  rcases applyIncomingBlock_cases hasher sampler block source st with
    ⟨-, hr⟩ | ⟨e, -, hr⟩ | ⟨st', hnew, hins, -, -, hr⟩
  · rw [hr]
    exact .inl ⟨rfl, rfl⟩
  · rw [hr]
    exact .inl ⟨(countRejected_frame source st).1, (countRejected_frame source st).2.1⟩
  · rw [hr]
    obtain ⟨n, hn⟩ := look_insertBlock_self hins
    exact .inr ⟨blockHash hasher block, (not_containsBlock_iff _).mpr hnew,
      (containsBlock_iff _).mpr ⟨n, hn⟩⟩

lemma applyBatch_grown (hown : OwnHashes hasher B) (blocks : List Block)
    (hst : Active hasher sampler B st) (hB : ∀ b ∈ blocks, B b) :
    Grown hasher sampler B st (applyBatch hasher sampler blocks st).2 := by
  induction blocks generalizing st with
  | nil => exact .of_untouched hst ⟨rfl, rfl, rfl, rfl⟩
  | cons b blocks ih =>
    have hone := applyIncomingBlock_grown hown hst .sync (hB b (by simp))
    rw [applyBatch]
    split
    · next heq =>
      rw [heq] at hone
      exact hone
    · next heq =>
      rw [heq] at hone
      exact hone.trans (ih hone.later.active fun b hb => hB b (by simp [hb]))

lemma settleAnswer_grown (hown : OwnHashes hasher B) (hst : Active hasher sampler B st)
    {answer : Answer} (hB : ∀ b ∈ answered answer, B b) :
    Grown hasher sampler B st (settleAnswer hasher sampler answer st).2 := by
  cases answer with
  | oversized => exact .of_untouched hst ⟨rfl, rfl, rfl, rfl⟩
  | refused => exact .of_untouched hst ⟨rfl, rfl, rfl, rfl⟩
  | complete blocks =>
    simp only [settleAnswer]
    split
    · exact .of_untouched hst ⟨rfl, rfl, rfl, rfl⟩
    · exact applyBatch_grown hown blocks hst hB

/-! ### What may come back -/

/-- Whatever blocks come back are blocks of the run. -/
def Genuine (addr : AddrText) (B : Block → Prop) (network : NetworkConfig)
    (peer : Str → Option Stream) : Prop :=
  ∀ request stream, peer request = some stream → ∀ line block,
    .ok line ∈ stream.lines network.maxMessageBytes →
      decodeNetworkMessage addr line network.wire = .ok (.block block) → B block

/-- An answer hands on only blocks that were read. -/
lemma answered_receiveBlocks {wire : WireConfig} {expected : List Digest} {received : List Block}
    {ls : List (Except IncomingReadError Str)} (hreceived : ∀ b ∈ received, B b)
    (hlines : ∀ line block, .ok line ∈ ls →
      decodeNetworkMessage addr line wire = .ok (.block block) → B block) :
    ∀ b ∈ answered (receiveBlocks hasher addr wire expected received ls), B b := by
  induction ls generalizing received with
  | nil => exact fun b hb => absurd hb List.not_mem_nil
  | cons l ls ih =>
    have hrest : ∀ line block, .ok line ∈ ls →
        decodeNetworkMessage addr line wire = .ok (.block block) → B block :=
      fun line block hline => hlines line block (List.mem_cons_of_mem l hline)
    cases l with
    | error e => cases e <;> exact fun b hb => absurd hb List.not_mem_nil
    | ok line =>
      simp only [receiveBlocks]
      split
      · exact fun b hb => absurd hb List.not_mem_nil
      · next block hread =>
        split
        · exact fun b hb => absurd hb List.not_mem_nil
        · split
          · exact fun b hb => absurd hb List.not_mem_nil
          · refine ih (fun b hb => ?_) hrest
            rcases List.mem_append.mp hb with hb | hb
            · exact hreceived b hb
            · rw [List.mem_singleton.mp hb]
              exact hlines line block List.mem_cons_self hread
      · split
        · exact hreceived
        · exact fun b hb => absurd hb List.not_mem_nil
      · exact fun b hb => absurd hb List.not_mem_nil

/-- **A call**, whatever comes back. -/
theorem syncFromPeer_grown (hown : OwnHashes hasher B) (hst : Active hasher sampler B st)
    {peer : Str → Option Stream} (hpeer : Genuine addr B st.network peer) (locator : List Digest)
    (limit : ℕ) :
    Grown hasher sampler B st (syncFromPeer hasher sampler addr peer locator limit st).2 := by
  have hnothing : Grown hasher sampler B st st := .of_untouched hst ⟨rfl, rfl, rfl, rfl⟩
  unfold syncFromPeer
  split
  · exact hnothing
  · simp only
    split
    · exact hnothing
    · split
      · unfold blocksFromPeer
        simp only
        split
        · exact hnothing
        · next stream hstream =>
          refine settleAnswer_grown hown hst (answered_receiveBlocks (by simp) ?_)
          exact fun line block hline => hpeer _ stream hstream line block hline
      · exact hnothing

/-! ### A pass -/

/-- A net in which one peer is honest, and the others send what they like. -/
structure OneHonest (hasher : HashPort) (sampler : SamplingPort) (addr : AddrText)
    (B : Block → Prop) (home : SocketAddr) (p st : NodeState)
    (net : SocketAddr → Str → Option Stream) : Prop where
  honest : net home = honestPeer hasher sampler addr p
  others : ∀ address, address ≠ home → Genuine addr B st.network (net address)

lemma OneHonest.of_settings (h : OneHonest hasher sampler addr B home p st net)
    (hsettings : settings st' = settings st) : OneHonest hasher sampler addr B home p st' net := by
  refine ⟨h.honest, fun address haddress => ?_⟩
  rw [show st'.network = st.network from congrArg Prod.fst hsettings]
  exact h.others address haddress

lemma Honest.of_grown (h : Honest hasher sampler addr B st p) (hst : Active hasher sampler B st)
    (hgrown : Grown hasher sampler B st st') : Honest hasher sampler addr B st' p := by
  refine h.of_settings hgrown.settings ?_
  rw [Active.config hgrown.later.active, hgrown.later.config, Active.config hst]

/-- One call of a pass, to the honest peer or another. -/
lemma call_grown (hown : OwnHashes hasher B) (hst : Active hasher sampler B st)
    (hp : Honest hasher sampler addr B st p)
    (hnet : OneHonest hasher sampler addr B home p st net) {locator : List Digest}
    (hloc : locator.length ≤ st.sync.maxLocatorHashes) (address : SocketAddr) :
    Grown hasher sampler B st (syncFromPeer hasher sampler addr (net address) locator
      st.sync.maxBlocksPerResponse st).2 := by
  by_cases haddress : address = home
  · subst haddress
    rw [hnet.honest]
    have hcall := call_called hown hst hp hloc
    refine ⟨⟨hcall.active, hcall.keeps, hcall.config⟩, hcall.settings, ?_⟩
    rcases hcall.idle with hsame | hlearnt
    · rw [hsame]
      exact .inl ⟨rfl, rfl⟩
    · exact .inr hlearnt
  · exact syncFromPeer_grown hown hst (hnet.others address haddress) locator _

/-- A call together with the counting of its result. -/
lemma countedCall_grown (hown : OwnHashes hasher B) (hst : Active hasher sampler B st)
    (hp : Honest hasher sampler addr B st p)
    (hnet : OneHonest hasher sampler addr B home p st net) {locator : List Digest}
    (hloc : locator.length ≤ st.sync.maxLocatorHashes) (address : SocketAddr) :
    Grown hasher sampler B st (countSync
      (syncFromPeer hasher sampler addr (net address) locator st.sync.maxBlocksPerResponse st).1
      (syncFromPeer hasher sampler addr (net address) locator st.sync.maxBlocksPerResponse
        st).2) := by
  have hcall := call_grown hown hst hp hnet hloc address
  exact hcall.trans (.of_untouched hcall.later.active (countSync_untouched _ _))

lemma syncAll_grown (hown : OwnHashes hasher B) (peers : List SocketAddr)
    (hst : Active hasher sampler B st) (hp : Honest hasher sampler addr B st p)
    (hnet : OneHonest hasher sampler addr B home p st net) {locator : List Digest}
    (hloc : locator.length ≤ st.sync.maxLocatorHashes) {limit : ℕ}
    (hlimit : limit = st.sync.maxBlocksPerResponse) :
    Grown hasher sampler B st (syncAll hasher sampler addr net locator limit peers st).2 := by
  induction peers generalizing st with
  | nil => exact .of_untouched hst ⟨rfl, rfl, rfl, rfl⟩
  | cons address rest ih =>
    subst hlimit
    have hcall := countedCall_grown hown hst hp hnet hloc address
    have hsync := congrArg Prod.snd hcall.settings
    exact hcall.trans (ih hcall.later.active (Honest.of_grown hp hst hcall)
      (hnet.of_settings hcall.settings)
      (hloc.trans_eq (congrArg Config.SyncConfig.maxLocatorHashes hsync.symm))
      (congrArg Config.SyncConfig.maxBlocksPerResponse hsync.symm))

/-- The honest peer has a better tip. -/
def Behind (st p : NodeState) : Prop :=
  ∃ tip, p.forkChoice.bestTip.bind p.forkChoice.look = some tip ∧
    st.forkChoice.shouldUpdate tip = true

/-- **Calls one of which is to a better peer** bring a block: that call does, unless one before it
has. -/
theorem syncAll_learns (hown : OwnHashes hasher B) {peers : List SocketAddr}
    (hst : Active hasher sampler B st) (hp : Honest hasher sampler addr B st p)
    (hnet : OneHonest hasher sampler addr B home p st net) (hmax : 1 ≤ st.sync.maxLocatorHashes)
    (hsees : Sees hasher st p) (hbehind : Behind st p) (hhome : home ∈ peers)
    {locator : List Digest}
    (hlocator : locator = blockLocator hasher st.chain st.sync.maxLocatorHashes) {limit : ℕ}
    (hlimit : limit = st.sync.maxBlocksPerResponse) :
    ∃ k, st.forkChoice.containsBlock k = false ∧
      (syncAll hasher sampler addr net locator limit peers st).2.forkChoice.containsBlock k =
        true := by
  induction peers generalizing st with
  | nil => exact absurd hhome List.not_mem_nil
  | cons address rest ih =>
    subst hlimit
    have hloc : locator.length ≤ st.sync.maxLocatorHashes := by
      rw [hlocator]
      exact blockLocator_length _ _
    have hcall := countedCall_grown hown hst hp hnet hloc address
    rw [syncAll]
    simp only
    generalize hresult : syncFromPeer hasher sampler addr (net address) locator
      st.sync.maxBlocksPerResponse st = r at hcall ⊢
    have hsync := congrArg Prod.snd hcall.settings
    have hrest := syncAll_grown hown rest hcall.later.active (Honest.of_grown hp hst hcall)
      (hnet.of_settings hcall.settings)
      (hloc.trans_eq (congrArg Config.SyncConfig.maxLocatorHashes hsync.symm))
      (congrArg Config.SyncConfig.maxBlocksPerResponse hsync.symm)
    rcases hcall.idle with ⟨hchain, hfc⟩ | ⟨k, hnew, hknown⟩
    · -- the locator is as good as fresh
      rcases List.mem_cons.mp hhome with rfl | hhome
      · obtain ⟨tip, htip, hbetter⟩ := hbehind
        obtain ⟨k, hnew, hlearnt⟩ := call_learns hown hst hp hmax hsees.sight hsees.room hsees.reach
          htip hbetter
        rw [← hlocator, ← hnet.honest, hresult] at hlearnt
        refine ⟨k, hnew, hrest.learnt ?_⟩
        rwa [(countSync_untouched r.1 r.2).forkChoice]
      · have hsync' : (countSync r.1 r.2).sync = st.sync := hsync
        have hsees' : Sees hasher (countSync r.1 r.2) p := by
          obtain ⟨hsight, hroom, hreach⟩ := hsees
          refine ⟨?_, ?_, ?_⟩
          · rwa [InSight, hchain, hsync']
          · rwa [hchain]
          · rwa [hchain, hsync']
        have hbehind' : Behind (countSync r.1 r.2) p := by
          rwa [Behind, hfc]
        obtain ⟨k, hnew, hlearnt⟩ := ih hcall.later.active (Honest.of_grown hp hst hcall)
          (hnet.of_settings hcall.settings) (by rwa [hsync']) hsees' hbehind' hhome
          (by rw [hchain, hsync', hlocator]) (by rw [hsync'])
        exact ⟨k, by rwa [hfc] at hnew, hlearnt⟩
    · exact ⟨k, hnew, hrest.learnt hknown⟩

lemma syncOnce_grown (hown : OwnHashes hasher B) (hst : Active hasher sampler B st)
    (hp : Honest hasher sampler addr B st p)
    (hnet : OneHonest hasher sampler addr B home p st net) :
    Grown hasher sampler B st (syncOnce hasher sampler addr net st).2 := by
  unfold syncOnce
  simp only
  split
  · exact .of_untouched hst ⟨rfl, rfl, rfl, rfl⟩
  · have hsame : Untouched st (exchangeAll addr net st.network.maxPeers st.peers st) :=
      exchangeAll_untouched _ _ _ st
    have hsync := congrArg Prod.snd hsame.settings
    have hexchanged : Grown hasher sampler B st _ := .of_untouched hst hsame
    refine hexchanged.trans (syncAll_grown hown _ (hsame.active hst)
      (Honest.of_grown hp hst hexchanged) (hnet.of_settings hsame.settings) ?_
      (congrArg Config.SyncConfig.maxBlocksPerResponse hsync.symm))
    exact (blockLocator_length _ _).trans_eq
      (congrArg Config.SyncConfig.maxLocatorHashes hsync.symm)

/-- **A pass that begins behind the honest peer** brings a block, whatever the others send. -/
theorem syncOnce_learns (hown : OwnHashes hasher B) (hst : Active hasher sampler B st)
    (hp : Honest hasher sampler addr B st p)
    (hnet : OneHonest hasher sampler addr B home p st net) (hmax : 1 ≤ st.sync.maxLocatorHashes)
    (hsees : Sees hasher st p) (hbehind : Behind st p) (hhome : home ∈ st.peers) :
    ∃ k, st.forkChoice.containsBlock k = false ∧
      (syncOnce hasher sampler addr net st).2.forkChoice.containsBlock k = true := by
  unfold syncOnce
  simp only
  rw [if_neg (List.ne_nil_of_mem hhome)]
  have hsame : Untouched st (exchangeAll addr net st.network.maxPeers st.peers st) :=
    exchangeAll_untouched _ _ _ st
  have hpeers : st.peers ⊆ (exchangeAll addr net st.network.maxPeers st.peers st).peers :=
    (exchangeAll_peers _ _ _ st).subset
  have hsync := congrArg Prod.snd hsame.settings
  generalize exchangeAll addr net st.network.maxPeers st.peers st = exchanged
    at hsame hpeers hsync ⊢
  have hsync' : exchanged.sync = st.sync := hsync
  have hbehind' : Behind exchanged p := by
    rwa [Behind, hsame.forkChoice]
  have hlocator : blockLocator hasher st.chain st.sync.maxLocatorHashes =
      blockLocator hasher exchanged.chain exchanged.sync.maxLocatorHashes := by
    rw [hsame.chain, hsync']
  have hlimit : st.sync.maxBlocksPerResponse = exchanged.sync.maxBlocksPerResponse := by
    rw [hsync']
  obtain ⟨k, hnew, hlearnt⟩ := syncAll_learns hown (hsame.active hst)
    (Honest.of_grown hp hst (.of_untouched hst hsame)) (hnet.of_settings hsame.settings)
    (by rwa [hsync']) (hsees.of_untouched hsame) hbehind' (hpeers hhome) hlocator hlimit
  exact ⟨k, by rwa [hsame.forkChoice] at hnew, hlearnt⟩

/-! ### Many passes -/

/-- A node that was `st₀`, after passes in which one peer is honest and the others send what they
like, and anything else in between. -/
inductive Besieged (hasher : HashPort) (sampler : SamplingPort) (addr : AddrText)
    (B : Block → Prop) (home : SocketAddr) (p st₀ : NodeState) : ℕ → NodeState → Prop
  | start : Besieged hasher sampler addr B home p st₀ 0 st₀
  | other {passes : ℕ} {st st' : NodeState} :
      Besieged hasher sampler addr B home p st₀ passes st → Step hasher sampler B st st' →
      settings st' = settings st → st.peers ⊆ st'.peers →
      Besieged hasher sampler addr B home p st₀ passes st'
  | pass {passes : ℕ} {st : NodeState} (net : SocketAddr → Str → Option Stream) :
      Besieged hasher sampler addr B home p st₀ passes st →
      OneHonest hasher sampler addr B home p st net → (Behind st p → Sees hasher st p) →
      Besieged hasher sampler addr B home p st₀ (passes + 1)
        (syncOnce hasher sampler addr net st).2

/-- What is no longer behind stays so. -/
lemma Behind.of_later (h : Behind st' p) (hlater : Later hasher sampler B st st') :
    Behind st p := by
  obtain ⟨tip, htip, hbetter⟩ := h
  refine ⟨tip, htip, Bool.not_eq_false _ ▸ fun hnot => ?_⟩
  unfold ForkChoiceState.shouldUpdate at hnot
  split at hnot
  · cases hnot
  · next best hbest =>
    obtain ⟨new, hnew, hworse⟩ := hlater.tip hbest
    have hle := ((isBetterTip_eq_false tip best).mp hnot).trans
      ((isBetterTip_eq_false best new).mp hworse)
    rw [ForkChoiceState.shouldUpdate, hnew] at hbetter
    simp [(isBetterTip_eq_false tip new).mpr hle] at hbetter

lemma mem_keys {fc : ForkChoiceState} {k : Digest} :
    k ∈ fc.nodes.keys ↔ fc.containsBlock k = true := by
  rw [Finmap.mem_keys, ← Finmap.lookup_isSome]
  rfl

lemma keys_subset {fc fc' : ForkChoiceState} (h : Extends fc.look fc'.look) :
    fc.nodes.keys ⊆ fc'.nodes.keys :=
  fun _ hk => mem_keys.mpr (containsBlock_mono h (mem_keys.mp hk))

lemma knownBlockCount_lt {fc fc' : ForkChoiceState} (h : Extends fc.look fc'.look) {k : Digest}
    (hnew : fc.containsBlock k = false) (hknown : fc'.containsBlock k = true) :
    fc.knownBlockCount < fc'.knownBlockCount := by
  refine Finset.card_lt_card ⟨keys_subset h, fun hsub => ?_⟩
  rw [mem_keys.mp (hsub (mem_keys.mpr hknown))] at hnew
  cases hnew

/-- What is known of a node after passes one honest peer took part in. -/
structure Withstood (hasher : HashPort) (sampler : SamplingPort) (B : Block → Prop)
    (home : SocketAddr) (p st₀ : NodeState) (passes : ℕ) (st : NodeState) : Prop where
  later : Later hasher sampler B st₀ st
  settings : settings st = settings st₀
  peer : home ∈ st.peers
  learnt : Behind st p → st₀.forkChoice.knownBlockCount + passes ≤ st.forkChoice.knownBlockCount

lemma Withstood.honest {passes : ℕ} (h : Withstood hasher sampler B home p st' passes st)
    (hst : Active hasher sampler B st') (hp : Honest hasher sampler addr B st' p) :
    Honest hasher sampler addr B st p := by
  refine hp.of_settings h.settings ?_
  rw [Active.config h.later.active, h.later.config, Active.config hst]

lemma Besieged.withstood (hown : OwnHashes hasher B) {st₀ : NodeState}
    (hst : Active hasher sampler B st₀) (hhome : home ∈ st₀.peers)
    (hmax : 1 ≤ st₀.sync.maxLocatorHashes) (hp : Honest hasher sampler addr B st₀ p)
    {passes : ℕ} (h : Besieged hasher sampler addr B home p st₀ passes st) :
    Withstood hasher sampler B home p st₀ passes st := by
  induction h with
  | start => exact ⟨⟨hst, Extends.refl _, rfl⟩, rfl, hhome, fun _ => le_rfl⟩
  | other hrun hstep hsettings hpeers ih =>
    have hone := later_of_run ih.later.active hown.nonzero (.single hstep)
    refine ⟨ih.later.trans hone, hsettings.trans ih.settings, hpeers ih.peer, fun hbehind => ?_⟩
    exact (ih.learnt (hbehind.of_later hone)).trans
      (Finset.card_le_card (keys_subset hone.extends_))
  | @pass passes st net hrun hnet hsees ih =>
    have hp' := ih.honest hst hp
    have hgrown := syncOnce_grown hown ih.later.active hp' hnet
    refine ⟨ih.later.trans hgrown.later, hgrown.settings.trans ih.settings,
      (syncOnce_peers net st).subset ih.peer, fun hbehind => ?_⟩
    -- the node was behind before the pass, so the pass has brought a block
    have hbefore := hbehind.of_later hgrown.later
    have hsync := congrArg Prod.snd ih.settings
    obtain ⟨k, hnew, hknown⟩ := syncOnce_learns hown ih.later.active hp' hnet
      (hmax.trans_eq (congrArg Config.SyncConfig.maxLocatorHashes hsync.symm)) (hsees hbefore)
      hbefore ih.peer
    have hmore := knownBlockCount_lt hgrown.later.extends_ hnew hknown
    have hless := ih.learnt hbefore
    omega

/-- **One honest peer prevails.** A node takes passes over its peers, one of which is honest; the
others send what they like, in every pass something else, and in between the node mines, takes in
blocks and does whatever else it does. Whenever a pass begins behind the honest peer, the node has
the point in sight where its chain parts from the peer's, an answer reaches above its own chain, and
the scores of the peer's chain fit. Then every such pass teaches it a block, and its tip is no worse
than the honest peer's once there have been more passes than it has learnt blocks. -/
theorem honest_peer_prevails (hasher : HashPort) (sampler : SamplingPort) (addr : AddrText)
    (B : Block → Prop) (hown : OwnHashes hasher B) (home : SocketAddr) (p st₀ st : NodeState)
    (passes : ℕ) (hreach : Reachable hasher sampler addr B st₀) (hhome : home ∈ st₀.peers)
    (hmax : 1 ≤ st₀.sync.maxLocatorHashes) (hp : Honest hasher sampler addr B st₀ p)
    (hrun : Besieged hasher sampler addr B home p st₀ passes st) :
    (∀ net, OneHonest hasher sampler addr B home p st net → Behind st p → Sees hasher st p →
      ∃ k, st.forkChoice.containsBlock k = false ∧
        (syncOnce hasher sampler addr net st).2.forkChoice.containsBlock k = true) ∧
      (st.forkChoice.knownBlockCount < st₀.forkChoice.knownBlockCount + passes →
        ∀ tip, p.forkChoice.bestTip.bind p.forkChoice.look = some tip →
          st.forkChoice.shouldUpdate tip = false) := by
  have hst := Reachable.active hreach hown.nonzero
  have hwithstood := hrun.withstood hown hst hhome hmax hp
  refine ⟨fun net hnet hbehind hsees => ?_, fun hfew tip htip => ?_⟩
  · have hsync := congrArg Prod.snd hwithstood.settings
    exact syncOnce_learns hown hwithstood.later.active (hwithstood.honest hst hp) hnet
      (hmax.trans_eq (congrArg Config.SyncConfig.maxLocatorHashes hsync.symm)) hsees hbehind
      hwithstood.peer
  · refine Bool.eq_false_iff.mpr fun hbetter => ?_
    exact absurd (hwithstood.learnt ⟨tip, htip, hbetter⟩) (Nat.not_le.mpr hfew)

/-! A node with a rival block, of whose two peers the first always breaks off. -/

def brokenHome : SocketAddr := .v4 0x7f000009 9333

def withPeers (peers : List SocketAddr) (st : NodeState) : NodeState := { st with peers }

def pestered : NodeState := withPeers [brokenHome, secondHome] (rivals false)

def broken (address : SocketAddr) : Str → Option Stream :=
  if address = secondHome then honestPeer toyHash deterministicSampler noAddr (rivals true)
  else fun _ => some ⟨[], true⟩

lemma withPeers_untouched (peers : List SocketAddr) (st : NodeState) :
    Untouched st (withPeers peers st) := ⟨rfl, rfl, rfl, rfl⟩

/-- A pass over the two. -/
def pesteredPass (st : NodeState) : List (Except Unit Unit) × NodeState :=
  syncOnce toyHash deterministicSampler noAddr broken st

lemma broken_oneHonest (st : NodeState) :
    OneHonest toyHash deterministicSampler noAddr IsRival secondHome (rivals true) st broken := by
  refine ⟨if_pos rfl, fun address haddress request stream hstream line block hline => ?_⟩
  rw [broken, if_neg haddress] at hstream
  cases hstream
  have hbroken : Stream.lines st.network.maxMessageBytes ⟨[], true⟩ = [.error .io] := rfl
  rw [hbroken, List.mem_singleton] at hline
  cases hline

lemma pestered_settings : settings pestered = (kinNetwork, Config.SyncConfig.default) :=
  (withPeers_untouched _ _).settings.trans (rivals_settings false)

lemma pestered_reachable : Reachable toyHash deterministicSampler noAddr IsRival pestered :=
  (rivals_reachable false).run (.single (withPeers_untouched _ _).step)

lemma pestered_honest :
    Honest toyHash deterministicSampler noAddr IsRival pestered (rivals true) := by
  have hall := rivals_joined.since ⟨isRival_nonzero, isRival_distinct⟩
  have hone := Since.allHonest ⟨isRival_nonzero, isRival_distinct⟩ rivals_joined hall false true
  exact hone.of_settings (withPeers_untouched _ _).settings
    (congrArg ChainState.config (withPeers_untouched _ (rivals false)).chain)

/-- Chains of rivals are short, so each sees the other. -/
lemma rivals_see {st : NodeState} (h : Active toyHash deterministicSampler IsRival st)
    (hconfig : st.chain.config = rivalConfig)
    (hsettings : settings st = (kinNetwork, Config.SyncConfig.default)) :
    Sees toyHash st (rivals true) := by
  have hreplayed := Active.replayed h
  rw [hconfig] at hreplayed
  have hlen : st.chain.blocks.length ≤ 1 := by
    rcases rival_chain hreplayed (Active.chain_known h) with hnil | ⟨b, -, hb⟩
    · simp [hnil]
    · simp [hb]
  have hsync := sync_of_settings hsettings
  have hpeer : (rivals true).sync = Config.SyncConfig.default :=
    sync_of_settings (rivals_settings true)
  refine ⟨.inl ?_, ?_, ?_⟩
  · rw [hsync]
    exact lt_of_le_of_lt hlen (by decide)
  · rw [(rivals_facts true).1, hconfig]
    decide
  · rw [hsync, hpeer]
    have hlimit : 1 < min Config.SyncConfig.default.maxBlocksPerResponse
      Config.SyncConfig.default.maxBlocksPerResponse := by decide
    omega

/-- There are two rivals, so nobody knows more. -/
lemma rivals_known_le {st : NodeState} (h : Active toyHash deterministicSampler IsRival st) :
    st.forkChoice.knownBlockCount ≤ 2 := by
  have hsub : st.forkChoice.nodes.keys ⊆
      {blockHash toyHash (rival 1), blockHash toyHash (rival 2)} := by
    intro k hk
    obtain ⟨n, hn⟩ := (containsBlock_iff k).mp (mem_keys.mp hk)
    rw [← (h.tree.stored k n hn).keyed]
    rcases h.known k n hn with hb | hb <;> simp [hb]
  exact (Finset.card_le_card hsub).trans Finset.card_le_two

lemma pestered_config : pestered.chain.config = rivalConfig := by
  rw [pestered, (withPeers_untouched _ _).chain, (rivals_facts false).1]

lemma pestered_besieged : Besieged toyHash deterministicSampler noAddr IsRival secondHome
    (rivals true) pestered 2 (pesteredPass (pesteredPass pestered).2).2 := by
  have hown : OwnHashes toyHash IsRival := ⟨isRival_nonzero, isRival_distinct⟩
  have hactive := Reachable.active pestered_reachable isRival_nonzero
  have hone : Grown toyHash deterministicSampler IsRival pestered (pesteredPass pestered).2 :=
    syncOnce_grown hown hactive pestered_honest (broken_oneHonest pestered)
  have hconfig' : (pesteredPass pestered).2.chain.config = rivalConfig := by
    rw [Active.config hone.later.active, hone.later.config, ← Active.config hactive,
      pestered_config]
  refine .pass broken (.pass broken .start (broken_oneHonest _) fun _ => ?_) (broken_oneHonest _)
    fun _ => ?_
  · exact rivals_see hactive pestered_config pestered_settings
  · exact rivals_see hone.later.active hconfig' (hone.settings.trans pestered_settings)

/-- The node is behind to begin with. -/
lemma pestered_behind : Behind pestered (rivals true) := by
  have hbetter : ((rivals true).forkChoice.bestTip.bind (rivals true).forkChoice.look).any
      (rivals false).forkChoice.shouldUpdate = true := by decide +kernel
  obtain ⟨tip, htip, hshould⟩ := (Option.any_eq_true _ _).mp hbetter
  refine ⟨tip, htip, ?_⟩
  rwa [pestered, (withPeers_untouched _ _).forkChoice]

/-- The first pass teaches the node a block, and after two its tip is no worse than the honest
peer's. -/
theorem honest_peer_prevails_pestered :
    Behind pestered (rivals true) ∧
      (∃ k, pestered.forkChoice.containsBlock k = false ∧
        (pesteredPass pestered).2.forkChoice.containsBlock k = true) ∧
      ((rivals true).forkChoice.bestTip.bind (rivals true).forkChoice.look).any
        (pesteredPass (pesteredPass pestered).2).2.forkChoice.shouldUpdate = false := by
  have hown : OwnHashes toyHash IsRival := ⟨isRival_nonzero, isRival_distinct⟩
  have hactive := Reachable.active pestered_reachable isRival_nonzero
  have hhome : secondHome ∈ pestered.peers := by simp [pestered, withPeers]
  have hmax : 1 ≤ pestered.sync.maxLocatorHashes := by
    rw [sync_of_settings pestered_settings]
    decide
  have hwithstood := pestered_besieged.withstood hown hactive hhome hmax pestered_honest
  have hcount : pestered.forkChoice.knownBlockCount = 1 := by
    rw [pestered, (withPeers_untouched _ _).forkChoice]
    exact (rivals_facts false).2.1
  have hfew : (pesteredPass (pesteredPass pestered).2).2.forkChoice.knownBlockCount <
      pestered.forkChoice.knownBlockCount + 2 := by
    have hle := rivals_known_le hwithstood.later.active
    omega
  obtain ⟨hteaches, -⟩ := honest_peer_prevails toyHash deterministicSampler noAddr IsRival hown
    secondHome (rivals true) pestered pestered 0 pestered_reachable hhome hmax pestered_honest
    .start
  obtain ⟨-, hprevails⟩ := honest_peer_prevails toyHash deterministicSampler noAddr IsRival hown
    secondHome (rivals true) pestered (pesteredPass (pesteredPass pestered).2).2 2
    pestered_reachable hhome hmax pestered_honest pestered_besieged
  refine ⟨pestered_behind, ?_, ?_⟩
  · have hsees := rivals_see hactive pestered_config pestered_settings
    obtain ⟨k, hnew, hknown⟩ := hteaches broken (broken_oneHonest pestered) pestered_behind hsees
    refine ⟨k, hnew, ?_⟩
    rw [pesteredPass]
    exact hknown
  · cases htip : (rivals true).forkChoice.bestTip.bind (rivals true).forkChoice.look with
    | none => rfl
    | some tip =>
      rw [Option.any_some]
      exact hprevails hfew tip htip

end Chesscoin.Hostile

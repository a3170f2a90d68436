import Chesscoin.Convergence

/-!
One pass over the peers.

The locator of a pass is made before its first call and used in all of them, while each call
screens against the active chain as it then is. A peer serves after the last block it shares with
the chain the locator was made from. When an earlier peer has led the node away from that block,
an honest answer is refused.
-/

namespace Chesscoin.Passes

open Chesscoin.Lib.Linked Chesscoin.Lib.Parting Chesscoin.Domain Chesscoin.Simulator
  Chesscoin.Validation Chesscoin.ForkChoice Chesscoin.ForkTree Chesscoin.ForkInvariant
  Chesscoin.Wire Chesscoin.Runtime Chesscoin.Runs Chesscoin.ActiveView Chesscoin.Locator
  Chesscoin.Screening Chesscoin.Serving Chesscoin.Sync Chesscoin.Exchange Chesscoin.Overlap
  Chesscoin.Catchup Chesscoin.Rounds Chesscoin.Convergence Chesscoin.Adapters

variable {hasher : HashPort} {sampler : SamplingPort} {addr : AddrText} {B : Block → Prop}
  {start : ChainState} {st p : NodeState} {maxHashes : ℕ}

/-! ### A locator made before -/

/-- Where the chain the locator was made from and the peer's part, the peer has nothing to serve,
or that point is still on the active chain. -/
def StillShared (hasher : HashPort) (start : ChainState) (st p : NodeState) : Prop :=
  (p.chain.blocks.drop (sharedLength hasher start.blocks p.chain.blocks)).take
      (min st.sync.maxBlocksPerResponse p.sync.maxBlocksPerResponse) = [] ∨
    (start.blocks = [] → st.chain.blocks = []) ∧
      sharedLength hasher start.blocks p.chain.blocks ≤
        sharedLength hasher st.chain.blocks p.chain.blocks

/-- The chain of a node at an earlier time: its blocks are those of the run. -/
structure Earlier (hasher : HashPort) (sampler : SamplingPort) (B : Block → Prop)
    (start : ChainState) (st : NodeState) : Prop where
  config : start.config = st.chain.config
  replayed : Replayed hasher sampler start.config start.blocks
  known : ∀ b ∈ start.blocks, B b
  named : start.blocks.length < st.sync.maxLocatorHashes

lemma leadsTo_earlier (hown : OwnHashes hasher B) (h : Earlier hasher sampler B start st)
    (hp : Active hasher sampler B p) (hconfig : p.chain.config = st.chain.config) :
    leadsTo hasher p.chain.blocks (blockLocator hasher start st.sync.maxLocatorHashes) =
      sharedLength hasher start.blocks p.chain.blocks := by
  have hreplayed := Active.replayed hp
  rw [hconfig, ← h.config] at hreplayed
  have hparts := replayed_parts hown h.replayed hreplayed h.known (Active.chain_known hp)
  have hnamed := h.named
  rw [leadsTo_blockLocator start _ hparts fun b hb => hown.nonzero b (h.known b hb)]
  split <;> omega

/-- It names the blocks of the peer's chain that were on its own. -/
lemma Earlier.names (h : Earlier hasher sampler B start st) {i : ℕ} {b : Block}
    (hi : i < sharedLength hasher start.blocks p.chain.blocks)
    (hb : p.chain.blocks[i]? = some b) :
    blockHash hasher b ∈ blockLocator hasher start st.sync.maxLocatorHashes := by
  obtain ⟨a, ha, hhash⟩ := exists_shared hi hb
  rw [← hhash]
  refine newest_mem_blockLocator ?_
  rw [List.take_of_length_le (by rw [List.length_reverse]; exact h.named.le)]
  exact List.mem_reverse.mpr (List.mem_of_getElem? ha)

/-- A locator that names the whole chain ends with the zero digest unless the chain is empty. -/
lemma zero_mem_blockLocator_iff (h : start.blocks.length < maxHashes) :
    Digest.zero ∈ blockLocator hasher start maxHashes ↔ start.blocks ≠ [] := by
  refine ⟨fun hmem hempty => ?_, zero_mem_blockLocator h⟩
  unfold blockLocator at hmem
  rw [hempty] at hmem
  split at hmem
  · cases hmem
  · simp at hmem

/-- A block of the peer's chain that the locator names is a place to start from as long as it is
on the active chain. -/
lemma expectedStart_named (hown : OwnHashes hasher B) (hst : Active hasher sampler B st)
    (hp : Active hasher sampler B p) (hconfig : p.chain.config = st.chain.config)
    {locator : List Digest} {i : ℕ} {b : Block} (hb : p.chain.blocks[i]? = some b)
    (hmem : blockHash hasher b ∈ locator) :
    expectedStart hasher st.chain locator (blockHash hasher b) =
      if i < sharedLength hasher st.chain.blocks p.chain.blocks then
        .ok (UInt64.ofNat (i + 1))
      else .error () := by
  have hB := Active.chain_known hp b (List.mem_of_getElem? hb)
  have hreplayed := Active.replayed hp
  rw [hconfig] at hreplayed
  split
  · next hi =>
    obtain ⟨a, ha, hhash⟩ := exists_shared hi hb
    exact expectedStart_common (Active.replayed hst) hreplayed
      (fun b hb b' hb' => hown.distinct b b' (Active.chain_known hst b hb)
        (Active.chain_known hp b' hb')) hb (hown.nonzero b hB) hmem
      ⟨a, List.mem_of_getElem? ha, hhash⟩
  · next hi =>
    rw [expectedStart, if_neg (hown.nonzero b hB), if_neg (not_not.mpr hmem)]
    cases hfind : (st.chain.blocks.map (blockHash hasher)).findIdx? (· == blockHash hasher b) with
    | none => rfl
    | some j =>
      exfalso
      obtain ⟨hlt, hbeq, -⟩ := List.findIdx?_eq_some_iff_getElem.mp hfind
      have hj : (st.chain.blocks.map (blockHash hasher))[j]? = some (blockHash hasher b) := by
        rw [List.getElem?_eq_getElem hlt, beq_iff_eq.mp hbeq]
      have hparts := active_parts hown hst hp hconfig
      have hi' : (p.chain.blocks.map (blockHash hasher))[i]? = some (blockHash hasher b) :=
        getElem?_hash.mpr ⟨b, hb, rfl⟩
      obtain ⟨rfl, -⟩ := hparts j i _ hj hi'
      exact hi ((hparts.mem_iff hj).mp (List.mem_of_getElem? hi'))

/-- **An answer for an earlier locator is accepted exactly when what it stands on is still
there.** -/
theorem screened_earlier_iff (hown : OwnHashes hasher B) (h : Earlier hasher sampler B start st)
    (hst : Active hasher sampler B st) (hp : Active hasher sampler B p)
    (hconfig : p.chain.config = st.chain.config) :
    validateHeadersAfterLocator hasher st.chain
        (blockLocator hasher start st.sync.maxLocatorHashes)
        ((served hasher p (blockLocator hasher start st.sync.maxLocatorHashes)
          st.sync.maxBlocksPerResponse).map (·.header)) = .ok () ↔
      StillShared hasher start st p := by
  have hreplayed := Active.replayed hp
  rw [hconfig] at hreplayed
  rw [served_part, leadsTo_earlier hown h hp hconfig, StillShared]
  by_cases hne : (p.chain.blocks.drop (sharedLength hasher start.blocks p.chain.blocks)).take
      (min st.sync.maxBlocksPerResponse p.sync.maxBlocksPerResponse) = []
  · rw [hne]
    exact iff_of_true rfl (.inl rfl)
  rw [validate_served hreplayed rfl hne, or_iff_right hne]
  have hserved := checkHeaders_served hreplayed
    (sharedLength hasher start.blocks p.chain.blocks)
    (min st.sync.maxBlocksPerResponse p.sync.maxBlocksPerResponse)
  rcases Nat.eq_zero_or_pos (sharedLength hasher start.blocks p.chain.blocks) with hz | hpos
  · -- the first block of the peer's chain
    rw [hz] at hserved ⊢
    rw [prevHash_zero] at hserved ⊢
    have hnamed : Digest.zero ∈ blockLocator hasher start st.sync.maxLocatorHashes ↔
        start.blocks ≠ [] := zero_mem_blockLocator_iff h.named
    by_cases hrefused : st.chain.blocks ≠ [] ∧
        Digest.zero ∉ blockLocator hasher start st.sync.maxLocatorHashes
    · rw [expectedStart, if_pos rfl, if_pos hrefused]
      refine iff_of_false (by simp) fun hstill => hrefused.1 (hstill.1 ?_)
      exact not_not.mp (mt hnamed.mpr hrefused.2)
    · rw [expectedStart, if_pos rfl, if_neg hrefused]
      refine iff_of_true hserved ⟨fun hempty => ?_, Nat.zero_le _⟩
      by_contra hblocks
      exact hrefused ⟨hblocks, fun hmem => hnamed.mp hmem hempty⟩
  · -- a block after one that the locator names
    obtain ⟨i, hi⟩ := Nat.exists_eq_succ_of_ne_zero hpos.ne'
    have hleft : sharedLength hasher start.blocks p.chain.blocks ≤ start.blocks.length :=
      sharedLength_le_left _ _
    have hright : sharedLength hasher start.blocks p.chain.blocks ≤ p.chain.blocks.length :=
      sharedLength_le_right _ _
    have hpeer : i < p.chain.blocks.length := by omega
    have hb : p.chain.blocks[i]? = some p.chain.blocks[i] := List.getElem?_eq_getElem hpeer
    have hmem := h.names (by omega) hb
    have hempty : start.blocks ≠ [] := List.ne_nil_of_length_pos (by omega)
    rw [hi] at hserved ⊢
    rw [prevHash_succ hb] at hserved ⊢
    rw [expectedStart_named hown hst hp hconfig hb hmem]
    by_cases hlt : i < sharedLength hasher st.chain.blocks p.chain.blocks
    · rw [if_pos hlt]
      exact iff_of_true hserved ⟨fun hnil => absurd hnil hempty, hlt⟩
    · rw [if_neg hlt]
      exact iff_of_false (by simp) fun hstill => hlt hstill.2

/-! ### A call -/

/-- **A call with an earlier locator fails exactly when what the answer stands on is gone.** -/
theorem syncFromPeer_earlier (hown : OwnHashes hasher B) (h : Earlier hasher sampler B start st)
    (hst : Active hasher sampler B st) (hp : Active hasher sampler B p)
    (hconfig : p.chain.config = st.chain.config) (hpass : Undisturbed addr st p)
    (hwithin : WithinLimits st p) :
    ∃ result st', syncFromPeer hasher sampler addr (honestPeer hasher sampler addr p)
        (blockLocator hasher start st.sync.maxLocatorHashes) st.sync.maxBlocksPerResponse st =
          (result, st') ∧ (result = .ok () ↔ StillShared hasher start st p) ∧
      Active hasher sampler B st' ∧ settings st' = settings st ∧
      st'.chain.config = st.chain.config := by
  have hiff := screened_earlier_iff hown h hst hp hconfig
  have hloc : (blockLocator hasher start st.sync.maxLocatorHashes).length ≤
      st.sync.maxLocatorHashes := blockLocator_length _ _
  by_cases hstill : StillShared hasher start st p
  · obtain ⟨st', hok, hactive, hsettings, htaken⟩ := sync_screened hown hst hp hconfig hpass hwithin
      hloc le_rfl (hiff.mpr hstill)
    refine ⟨_, st', hok, iff_of_true rfl hstill, hactive, hsettings, ?_⟩
    rw [Active.config hactive, htaken.config, Active.config hst]
  · cases hscreen : validateHeadersAfterLocator hasher st.chain
        (blockLocator hasher start st.sync.maxLocatorHashes)
        ((served hasher p (blockLocator hasher start st.sync.maxLocatorHashes)
          st.sync.maxBlocksPerResponse).map (·.header)) with
    | ok u => exact absurd (hiff.mp hscreen) hstill
    | error e =>
      exact ⟨_, st, syncFromPeer_refused hpass hwithin hloc le_rfl hscreen,
        iff_of_false (by simp) hstill, hst, rfl, rfl⟩

/-! ### A pass -/

/-- The chains, the log and the settings are as they were. -/
structure Untouched (st st' : NodeState) : Prop where
  chain : st'.chain = st.chain
  forkChoice : st'.forkChoice = st.forkChoice
  storage : st'.storage = st.storage
  settings : settings st' = settings st

lemma Untouched.trans {st st' st'' : NodeState} (h : Untouched st st') (h' : Untouched st' st'') :
    Untouched st st'' :=
  ⟨h'.chain.trans h.chain, h'.forkChoice.trans h.forkChoice, h'.storage.trans h.storage,
    h'.settings.trans h.settings⟩

lemma Untouched.step {st st' : NodeState} (h : Untouched st st') : Step hasher sampler B st st' :=
  .other h.chain h.forkChoice h.storage

lemma Untouched.active {st st' : NodeState} (h : Untouched st st')
    (hst : Active hasher sampler B st) : Active hasher sampler B st' := by
  refine ⟨?_, ?_, ?_⟩
  · rw [h.forkChoice]
    exact hst.tree
  · rw [h.forkChoice]
    exact hst.known
  · rw [h.chain, h.forkChoice]
    exact hst.chain

lemma countSync_untouched (result : Except Unit Unit) (st : NodeState) :
    Untouched st (countSync result st) := by
  cases result <;> exact ⟨rfl, rfl, rfl, rfl⟩

lemma addPeerToState_untouched (peer : SocketAddr) (st : NodeState) :
    Untouched st (addPeerToState peer st).2 := by
  unfold addPeerToState
  split <;> exact ⟨rfl, rfl, rfl, rfl⟩

lemma addPeer_untouched (peer : SocketAddr) (st : NodeState) :
    Untouched st (addPeer peer st).2 := by
  have hadd : Untouched st (addPeerToState peer st).2 := addPeerToState_untouched peer st
  unfold addPeer
  split
  · next st' heq =>
    rw [heq] at hadd
    exact hadd
  · next st' heq =>
    rw [heq] at hadd
    exact hadd.trans ⟨rfl, rfl, rfl, rfl⟩

lemma exchangePeersWith_untouched (peer : Lib.Text.Str → Option Stream) (limit : ℕ)
    (st : NodeState) : Untouched st (exchangePeersWith addr peer limit st).2 := by
  have hfold : ∀ (advertised : List SocketAddr) (st : NodeState),
      Untouched st (advertised.foldl (fun st candidate => (addPeer candidate st).2) st) := by
    intro advertised
    induction advertised with
    | nil => exact fun st => ⟨rfl, rfl, rfl, rfl⟩
    | cons candidate rest ih => exact fun st => (addPeer_untouched candidate st).trans (ih _)
  unfold exchangePeersWith
  split
  · exact ⟨rfl, rfl, rfl, rfl⟩
  · exact hfold _ st

lemma exchangeAll_untouched (net : SocketAddr → Lib.Text.Str → Option Stream) (limit : ℕ)
    (peers : List SocketAddr) (st : NodeState) :
    Untouched st (exchangeAll addr net limit peers st) := by
  induction peers generalizing st with
  | nil => exact ⟨rfl, rfl, rfl, rfl⟩
  | cons peer rest ih =>
    have hone : Untouched st (exchangePeersWith addr (net peer) limit st).2 :=
      exchangePeersWith_untouched (net peer) limit st
    exact (hone.trans (countSync_untouched _ _)).trans (ih _)

/-- **A call is a step of the node** or nothing, whatever the peer sends. -/
theorem syncFromPeer_run (peer : Lib.Text.Str → Option Stream) (locator : List Digest)
    (limit : ℕ) (st : NodeState) :
    Relation.ReflTransGen (Step hasher sampler fun _ => True) st
      (syncFromPeer hasher sampler addr peer locator limit st).2 := by
  unfold syncFromPeer
  split
  · exact .refl
  · next headers _ =>
    simp only
    split
    · exact .refl
    · split
      · have hsettle : ∃ answer, blocksFromPeer hasher sampler addr peer locator
            (headers.map (blockHeaderHash hasher)) st = settleAnswer hasher sampler answer st :=
          blocksFromPeer_eq_settle peer locator _ st
        obtain ⟨answer, hanswer⟩ := hsettle
        rw [hanswer]
        exact .single (.batch answer fun _ _ => trivial)
      · exact .refl

lemma syncAll_run (net : SocketAddr → Lib.Text.Str → Option Stream) (locator : List Digest)
    (limit : ℕ) (peers : List SocketAddr) (st : NodeState) :
    Relation.ReflTransGen (Step hasher sampler fun _ => True) st
      (syncAll hasher sampler addr net locator limit peers st).2 := by
  induction peers generalizing st with
  | nil => exact .refl
  | cons peer rest ih =>
    have hcall : Relation.ReflTransGen (Step hasher sampler fun _ => True) st
        (syncFromPeer hasher sampler addr (net peer) locator limit st).2 :=
      syncFromPeer_run (net peer) locator limit st
    have hcount : Untouched (syncFromPeer hasher sampler addr (net peer) locator limit st).2 _ :=
      countSync_untouched (syncFromPeer hasher sampler addr (net peer) locator limit st).1 _
    exact (hcall.tail hcount.step).trans (ih _)

/-- **A pass is a run of the node**, whatever the peers send: what holds in every reachable state
holds after it. -/
theorem syncOnce_run (net : SocketAddr → Lib.Text.Str → Option Stream) (st : NodeState) :
    Relation.ReflTransGen (Step hasher sampler fun _ => True) st
      (syncOnce hasher sampler addr net st).2 := by
  have hexchange : Untouched st (exchangeAll addr net st.network.maxPeers st.peers st) :=
    exchangeAll_untouched net st.network.maxPeers st.peers st
  unfold syncOnce
  simp only
  split
  · exact .refl
  · exact (Relation.ReflTransGen.single hexchange.step).trans (syncAll_run net _ _ _ _)

/-- A peer that stands still, with the messages between it and the node getting through. -/
structure Honest (hasher : HashPort) (sampler : SamplingPort) (addr : AddrText)
    (B : Block → Prop) (st p : NodeState) : Prop where
  active : Active hasher sampler B p
  config : p.chain.config = st.chain.config
  pass : Undisturbed addr st p
  within : WithinLimits st p

lemma Honest.of_settings {st' : NodeState} (h : Honest hasher sampler addr B st p)
    (hsettings : settings st' = settings st) (hconfig : st'.chain.config = st.chain.config) :
    Honest hasher sampler addr B st' p := by
  exact ⟨h.active, h.config.trans hconfig.symm, undisturbed_settings hsettings h.pass,
    within_settings hsettings h.within⟩

/-- The ways to cut a list at an element: at its head, or in its tail. -/
lemma forall_cut_cons {α : Type} {P : List α → α → Prop} {x : α} {xs : List α} :
    (∀ before a after, x :: xs = before ++ a :: after → P before a) ↔
      P [] x ∧ ∀ before a after, xs = before ++ a :: after → P (x :: before) a := by
  constructor
  · intro hall
    refine ⟨hall [] x xs rfl, fun before a after hcut => hall (x :: before) a after ?_⟩
    rw [hcut, List.cons_append]
  · rintro ⟨hfirst, hothers⟩ before a after hcut
    cases before with
    | nil =>
      cases hcut
      exact hfirst
    | cons b before =>
      rw [List.cons_append, List.cons.injEq] at hcut
      obtain ⟨rfl, hcut⟩ := hcut
      exact hothers before a after hcut

/-- **No call of a pass fails exactly when each finds what its answer stands on**, in the state
the calls before it have led to. -/
theorem syncAll_ok_iff (hown : OwnHashes hasher B) (peersOf : SocketAddr → NodeState)
    {locator : List Digest} {limit : ℕ} {peers : List SocketAddr}
    (h : Earlier hasher sampler B start st) (hst : Active hasher sampler B st)
    (hpeers : ∀ a ∈ peers, Honest hasher sampler addr B st (peersOf a))
    (hlocator : locator = blockLocator hasher start st.sync.maxLocatorHashes)
    (hlimit : limit = st.sync.maxBlocksPerResponse) :
    (∀ r ∈ (syncAll hasher sampler addr
        (fun a => honestPeer hasher sampler addr (peersOf a)) locator limit peers st).1,
          r = .ok ()) ↔
      ∀ before a after, peers = before ++ a :: after →
        StillShared hasher start (syncAll hasher sampler addr
          (fun a => honestPeer hasher sampler addr (peersOf a)) locator limit before st).2
            (peersOf a) := by
  induction peers generalizing st with
  | nil =>
    refine iff_of_true (fun r hr => nomatch hr) fun before a after hsplit => ?_
    cases before <;> cases hsplit
  | cons peer rest ih =>
    have hpeer := hpeers peer (by simp)
    obtain ⟨result, st₁, hcall, hiff, hactive, hsettings, hconfig⟩ :=
      syncFromPeer_earlier hown h hst hpeer.active hpeer.config hpeer.pass hpeer.within
    rw [← hlocator, ← hlimit] at hcall
    have hcount := countSync_untouched result st₁
    have hsettings' := hcount.settings.trans hsettings
    have hconfig' : (countSync result st₁).chain.config = st.chain.config := by
      rw [hcount.chain, hconfig]
    have hsync : (countSync result st₁).sync = st.sync := congrArg Prod.snd hsettings'
    have hearlier : Earlier hasher sampler B start (countSync result st₁) :=
      ⟨h.config.trans hconfig'.symm, h.replayed, h.known, hsync ▸ h.named⟩
    have hrest := ih hearlier (hcount.active hactive)
      (fun a ha => (hpeers a (by simp [ha])).of_settings hsettings' hconfig')
      (hsync ▸ hlocator) (hsync ▸ hlimit)
    have hcons : ∀ l, syncAll hasher sampler addr
        (fun a => honestPeer hasher sampler addr (peersOf a)) locator limit (peer :: l) st =
          (result :: (syncAll hasher sampler addr (fun a => honestPeer hasher sampler addr
            (peersOf a)) locator limit l (countSync result st₁)).1,
          (syncAll hasher sampler addr (fun a => honestPeer hasher sampler addr
            (peersOf a)) locator limit l (countSync result st₁)).2) := by
      intro l
      simp only [syncAll, hcall]
    rw [hcons, List.forall_mem_cons, hiff, hrest, forall_cut_cons]
    simp only [hcons]
    rfl

/-- The state of a node once a pass has exchanged peers. -/
def exchanged (hasher : HashPort) (sampler : SamplingPort) (addr : AddrText)
    (peersOf : SocketAddr → NodeState) (st : NodeState) : NodeState :=
  exchangeAll addr (fun a => honestPeer hasher sampler addr (peersOf a)) st.network.maxPeers
    st.peers st

/-- The state of a node when the peers `before` have been asked for blocks. -/
def passed (hasher : HashPort) (sampler : SamplingPort) (addr : AddrText)
    (peersOf : SocketAddr → NodeState) (st : NodeState) (before : List SocketAddr) : NodeState :=
  (syncAll hasher sampler addr (fun a => honestPeer hasher sampler addr (peersOf a))
    (blockLocator hasher st.chain st.sync.maxLocatorHashes) st.sync.maxBlocksPerResponse before
    (exchanged hasher sampler addr peersOf st)).2

/-- The first call of a pass is a round. -/
lemma passed_one {peersOf : SocketAddr → NodeState} {a : SocketAddr} {result : Except Unit Unit}
    {st' : NodeState} (h : syncRound hasher sampler addr
      (honestPeer hasher sampler addr (peersOf a)) (exchanged hasher sampler addr peersOf st) =
        (result, st')) :
    passed hasher sampler addr peersOf st [a] = countSync result st' := by
  have hsame : Untouched st (exchanged hasher sampler addr peersOf st) :=
    exchangeAll_untouched _ _ _ st
  have hsync : (exchanged hasher sampler addr peersOf st).sync = st.sync :=
    congrArg Prod.snd hsame.settings
  rw [syncRound, hsame.chain, hsync] at h
  rw [passed, syncAll, h]
  rfl

/-- The iff of a pass, of the peers as they are. -/
lemma syncOnce_ok_iff (hown : OwnHashes hasher B) (peersOf : SocketAddr → NodeState)
    (hst : Active hasher sampler B st)
    (hshort : st.chain.blocks.length < st.sync.maxLocatorHashes)
    (hpeers : ∀ a ∈ (exchanged hasher sampler addr peersOf st).peers,
      Honest hasher sampler addr B st (peersOf a)) :
    (∀ r ∈ (syncOnce hasher sampler addr
        (fun a => honestPeer hasher sampler addr (peersOf a)) st).1, r = .ok ()) ↔
      ∀ before a after, (exchanged hasher sampler addr peersOf st).peers = before ++ a :: after →
        StillShared hasher st.chain (passed hasher sampler addr peersOf st before)
          (peersOf a) := by
  have hsame : Untouched st (exchanged hasher sampler addr peersOf st) :=
    exchangeAll_untouched _ _ _ st
  have hsync : (exchanged hasher sampler addr peersOf st).sync = st.sync :=
    congrArg Prod.snd hsame.settings
  have hchain : (exchanged hasher sampler addr peersOf st).chain.config = st.chain.config := by
    rw [hsame.chain]
  have hearlier : Earlier hasher sampler B st.chain (exchanged hasher sampler addr peersOf st) :=
    ⟨hchain.symm, Active.replayed hst, Active.chain_known hst, hsync ▸ hshort⟩
  have hlocator : blockLocator hasher st.chain st.sync.maxLocatorHashes = blockLocator hasher
      st.chain (exchanged hasher sampler addr peersOf st).sync.maxLocatorHashes := by
    rw [hsync]
  have hlimit : st.sync.maxBlocksPerResponse =
      (exchanged hasher sampler addr peersOf st).sync.maxBlocksPerResponse := by
    rw [hsync]
  have hall := syncAll_ok_iff hown peersOf hearlier (hsame.active hst)
    (fun a ha => (hpeers a ha).of_settings hsame.settings hchain) hlocator hlimit
  by_cases hnone : st.peers = []
  · have hempty : (exchanged hasher sampler addr peersOf st).peers = [] := by
      rw [exchanged, hnone, exchangeAll]
      exact hnone
    rw [syncOnce, if_pos hnone, hempty]
    refine iff_of_true (fun r hr => nomatch hr) fun before a after hsplit => ?_
    cases before <;> cases hsplit
  · rw [syncOnce, if_neg hnone]
    exact hall

/-- **One pass over honest peers.** The locator names the whole chain of the node. No call of the
pass fails if and only if each call finds the active chain still sharing with its peer what the
chain at the start of the pass shared, or has nothing to fetch. -/
theorem pass_all_ok_iff (hasher : HashPort) (sampler : SamplingPort) (addr : AddrText)
    (B : Block → Prop) (hown : OwnHashes hasher B) (st : NodeState)
    (peersOf : SocketAddr → NodeState) (hst : Reachable hasher sampler addr B st)
    (hshort : st.chain.blocks.length < st.sync.maxLocatorHashes)
    (hreach : ∀ a ∈ (exchanged hasher sampler addr peersOf st).peers,
      Reachable hasher sampler addr B (peersOf a))
    (hconfig : ∀ a ∈ (exchanged hasher sampler addr peersOf st).peers,
      (peersOf a).chain.config = st.chain.config)
    (hpass : ∀ a ∈ (exchanged hasher sampler addr peersOf st).peers,
      Undisturbed addr st (peersOf a))
    (hwithin : ∀ a ∈ (exchanged hasher sampler addr peersOf st).peers,
      WithinLimits st (peersOf a)) :
    (∀ r ∈ (syncOnce hasher sampler addr
        (fun a => honestPeer hasher sampler addr (peersOf a)) st).1, r = .ok ()) ↔
      ∀ before a after, (exchanged hasher sampler addr peersOf st).peers = before ++ a :: after →
        StillShared hasher st.chain (passed hasher sampler addr peersOf st before)
          (peersOf a) := by
  refine syncOnce_ok_iff hown peersOf (Reachable.active hst hown.nonzero) hshort fun a ha => ?_
  exact ⟨Reachable.active (hreach a ha) hown.nonzero, hconfig a ha, hpass a ha, hwithin a ha⟩

/-! ### Two peers -/

/-! A node with room for two peers: one with another first block that wins, and one with a block
after the node's own. -/

def firstAddr : SocketAddr := .v4 0x7f000002 9333
def secondAddr : SocketAddr := .v4 0x7f000003 9333

def crowdedConfig : Config.NodeConfig :=
  { Config.NodeConfig.localhostEphemeral "node".toList with
    chain := rivalConfig
    peers := [firstAddr, secondAddr]
    network := { Config.NetworkConfig.default with maxPeers := 2 } }

def crowdedStart : NodeState :=
  initialState crowdedConfig (.v4 0x7f000001 9333) none
    (ChainState.new rivalConfig, ForkChoiceState.new rivalConfig)

def crowded : NodeState :=
  (applyIncomingBlock toyHash deterministicSampler trunk .gossip crowdedStart).2

def strangerNode : NodeState := kinNode 128 32 [stranger]
def longerNode : NodeState := kinNode 128 32 [trunk, left]

/-- The node with the other first block under the first address. -/
def strangerFirst (a : SocketAddr) : NodeState :=
  if a = firstAddr then strangerNode else longerNode

/-- The node with the longer chain under the first address. -/
def longerFirst (a : SocketAddr) : NodeState :=
  if a = firstAddr then longerNode else strangerNode

lemma crowded_facts : crowded.chain = ⟨rivalConfig, [trunk]⟩ ∧
    crowded.peers = [firstAddr, secondAddr] := by
  decide +kernel

lemma strangerNode_chain : strangerNode.chain = ⟨rivalConfig, [stranger]⟩ := by decide +kernel

lemma longerNode_chain : longerNode.chain = ⟨rivalConfig, [trunk, left]⟩ := by decide +kernel

lemma crowded_settings :
    settings crowded = (crowdedStart.network, Config.SyncConfig.default) :=
  applyIncomingBlock_settings trunk .gossip crowdedStart

lemma crowded_limits : SameLimits crowded.network := by
  rw [network_of_settings crowded_settings]
  exact ⟨rfl, rfl⟩

lemma crowded_reachable : Reachable toyHash deterministicSampler addr (· ∈ kin) crowded := by
  have hnew : ∀ k n, (ForkChoiceState.new rivalConfig).look k = some n → n.block ∈ kin := by
    intro k n hk
    rw [look_new] at hk
    cases hk
  have htrunk : trunk ∈ kin := by simp [kin]
  exact ⟨crowdedStart, ⟨rivalConfig, rfl, hnew⟩, .single (.incoming trunk .gossip htrunk)⟩

/-- A table of peers that is full stays as it is. -/
lemma addPeer_full (peer : SocketAddr) (h : st.network.maxPeers ≤ st.peers.length) :
    (addPeer peer st).2.peers = st.peers := by
  have hadd : addPeerToState peer st = (false, st) := by
    unfold addPeerToState
    exact if_pos (.inr (.inr (.inr (.inr h))))
  unfold addPeer
  rw [hadd]

lemma addPeers_full (candidates : List SocketAddr) (h : st.network.maxPeers ≤ st.peers.length) :
    (candidates.foldl (fun st candidate => (addPeer candidate st).2) st).peers = st.peers := by
  induction candidates generalizing st with
  | nil => rfl
  | cons candidate rest ih =>
    have hnetwork : (addPeer candidate st).2.network = st.network :=
      congrArg Prod.fst (addPeer_untouched candidate st).settings
    have hpeers : (addPeer candidate st).2.peers = st.peers := addPeer_full candidate h
    rw [List.foldl_cons, ih (by rw [hnetwork, hpeers]; exact h), hpeers]

lemma countSync_peers (result : Except Unit Unit) (st : NodeState) :
    (countSync result st).peers = st.peers := by
  cases result <;> rfl

lemma exchangeAll_full (net : SocketAddr → Lib.Text.Str → Option Stream) (limit : ℕ)
    (peers : List SocketAddr) (h : st.network.maxPeers ≤ st.peers.length) :
    (exchangeAll addr net limit peers st).peers = st.peers := by
  induction peers generalizing st with
  | nil => rfl
  | cons peer rest ih =>
    have hone : (exchangePeersWith addr (net peer) limit st).2.peers = st.peers := by
      unfold exchangePeersWith
      split
      · rfl
      · exact addPeers_full _ h
    have huntouched : Untouched st (exchangePeersWith addr (net peer) limit st).2 :=
      exchangePeersWith_untouched (net peer) limit st
    have hcounted := huntouched.trans
      (countSync_untouched (exchangePeersWith addr (net peer) limit st).1 _)
    have hmax := congrArg (fun s => s.1.maxPeers) hcounted.settings
    have hpeers := (countSync_peers (exchangePeersWith addr (net peer) limit st).1 _).trans hone
    exact (ih (hmax.trans_le (h.trans_eq (congrArg List.length hpeers.symm)))).trans hpeers

lemma crowded_peers (peersOf : SocketAddr → NodeState) :
    (exchanged toyHash deterministicSampler addr peersOf crowded).peers =
      [firstAddr, secondAddr] := by
  have hfull : crowded.network.maxPeers ≤ crowded.peers.length := by
    rw [network_of_settings crowded_settings, crowded_facts.2]
    exact le_rfl
  rw [exchanged, exchangeAll_full _ _ _ hfull, crowded_facts.2]

lemma crowded_sync : crowded.sync = Config.SyncConfig.default :=
  sync_of_settings crowded_settings

/-- A peer the node may be asking. -/
def Ready (p : NodeState) : Prop :=
  Reachable toyHash deterministicSampler noAddr (· ∈ kin) p ∧
    p.chain.config = crowded.chain.config ∧ Undisturbed noAddr crowded p ∧ WithinLimits crowded p

lemma Ready.honest {p : NodeState} (h : Ready p) :
    Honest toyHash deterministicSampler noAddr (· ∈ kin) crowded p := by
  obtain ⟨hreach, hconfig, hpass, hwithin⟩ := h
  exact ⟨Reachable.active hreach kin_own.nonzero, hconfig, hpass, hwithin⟩

lemma ready_of_blocks {p : NodeState} {blocks : List Block} (hp : p = kinNode 128 32 blocks)
    (h : blocks ⊆ kin) (hchain : p.chain = ⟨rivalConfig, blocks⟩)
    (hheaders : (blocks.map fun b => (encodeHeader b.header).length + 1).sum ≤ 10000)
    (hblocks : ∀ b ∈ blocks, (encodeBlock b).length ≤ 10000) : Ready p := by
  subst hp
  refine ⟨kinNode_reachable h, by rw [hchain, crowded_facts.1],
    few_undisturbed crowded_limits (kinNode_limits _) ?_ ?_ ?_, ?_, ?_⟩
  · rw [crowded_sync]
    exact le_rfl
  · rwa [hchain]
  · rwa [hchain]
  · rw [crowded_sync]
    decide
  · rw [crowded_sync, kinNode_sync]
    exact le_rfl

lemma strangerNode_ready : Ready strangerNode :=
  ready_of_blocks (by rw [strangerNode]) (by simp [kin]) strangerNode_chain (by decide +kernel)
    (by decide +kernel)

lemma longerNode_ready : Ready longerNode :=
  ready_of_blocks (by rw [longerNode]) (by simp [kin]) longerNode_chain (by decide +kernel)
    (by decide +kernel)

lemma longerFirst_ready (a : SocketAddr) : Ready (longerFirst a) := by
  unfold longerFirst
  split
  · exact longerNode_ready
  · exact strangerNode_ready

lemma strangerFirst_ready (a : SocketAddr) : Ready (strangerFirst a) := by
  unfold strangerFirst
  split
  · exact strangerNode_ready
  · exact longerNode_ready

lemma crowded_short : crowded.chain.blocks.length < crowded.sync.maxLocatorHashes := by
  rw [crowded_facts.1, crowded_sync]
  decide

/-- What holds of both calls holds of every call. -/
lemma both_calls {P : List SocketAddr → SocketAddr → Prop} (hfirst : P [] firstAddr)
    (hsecond : P [firstAddr] secondAddr) (before : List SocketAddr) (a : SocketAddr)
    (after : List SocketAddr) (h : [firstAddr, secondAddr] = before ++ a :: after) :
    P before a := by
  match before with
  | [] =>
    cases h
    exact hfirst
  | [b] =>
    cases h
    exact hsecond
  | b :: b' :: before =>
    have hlen := congrArg List.length h
    simp only [List.length_cons, List.length_append, List.length_nil] at hlen
    omega

/-- The longer chain first: the other peer shares nothing that could be lost. -/
theorem pass_all_ok_longer :
    (exchanged toyHash deterministicSampler noAddr longerFirst crowded).peers =
        [firstAddr, secondAddr] ∧
      ∀ r ∈ (syncOnce toyHash deterministicSampler noAddr
        (fun a => honestPeer toyHash deterministicSampler noAddr (longerFirst a)) crowded).1,
          r = .ok () := by
  have hnothing : sharedLength toyHash [trunk] [stranger] = 0 := by decide +kernel
  refine ⟨crowded_peers _, (pass_all_ok_iff toyHash deterministicSampler noAddr (· ∈ kin) kin_own
    crowded longerFirst crowded_reachable crowded_short (fun a _ => (longerFirst_ready a).1)
    (fun a _ => (longerFirst_ready a).2.1) (fun a _ => (longerFirst_ready a).2.2.1)
    fun a _ => (longerFirst_ready a).2.2.2).mpr ?_⟩
  rw [crowded_peers]
  have hsame : Untouched crowded
      (exchanged toyHash deterministicSampler noAddr longerFirst crowded) :=
    exchangeAll_untouched _ _ _ crowded
  refine both_calls (.inr ⟨fun hnil => ?_, ?_⟩) (.inr ⟨fun hnil => ?_, ?_⟩)
  · rw [passed, syncAll, hsame.chain]
    exact hnil
  · rw [passed, syncAll, hsame.chain]
  · rw [crowded_facts.1] at hnil
    cases hnil
  · rw [longerFirst, if_neg (by decide), strangerNode_chain, crowded_facts.1, hnothing]
    exact Nat.zero_le _

lemma crowded_active : Active toyHash deterministicSampler (· ∈ kin) crowded := by
  have hreach : Reachable toyHash deterministicSampler noAddr (· ∈ kin) crowded :=
    crowded_reachable
  exact Reachable.active hreach kin_own.nonzero

/-- The node goes over to the other first block. -/
lemma crowded_reorg (h : Untouched crowded st) :
    ∃ st', syncRound toyHash deterministicSampler noAddr
        (honestPeer toyHash deterministicSampler noAddr strangerNode) st = (.ok (), st') ∧
      settings st' = settings crowded ∧
      st'.chain.blocks.map (blockHash toyHash) = [blockHash toyHash stranger] := by
  have hbetter : (strangerNode.forkChoice.bestTip.bind strangerNode.forkChoice.look).any
      crowded.forkChoice.shouldUpdate = true := by
    decide +kernel
  rw [← h.forkChoice] at hbetter
  have hst := strangerNode_ready.honest.of_settings h.settings (congrArg ChainState.config h.chain)
  have hsync : st.sync = Config.SyncConfig.default :=
    sync_of_settings (h.settings.trans crowded_settings)
  have hpeer : strangerNode.sync = Config.SyncConfig.default := by
    rw [strangerNode, kinNode_sync]
    rfl
  have hsession : Session toyHash deterministicSampler noAddr (· ∈ kin) st strangerNode := by
    refine ⟨h.active crowded_active, hst.active, hst.config, hst.pass, hst.within, ?_, ?_, ?_, ?_⟩
    · rw [hsync]
      decide
    · rw [hsync]
      decide
    · rw [hsync, hpeer]
    · rw [strangerNode_chain, h.chain, crowded_facts.1]
      decide +kernel
  have hsight : InSight toyHash st strangerNode := by
    have hshort := crowded_short
    rw [← h.chain, crowded_sync, ← hsync] at hshort
    exact .inl hshort
  obtain ⟨tip, htip, htop⟩ := better_of_any hbetter
  have hmax : st.sync.maxLocatorHashes ≤ st.sync.maxBlocksPerResponse := by
    rw [hsync]
    decide
  obtain ⟨st', hround, -, hsettings, hfollows⟩ :=
    forked_round kin_own hsession hmax hsight htip htop
  refine ⟨st', hround, hsettings.trans h.settings, ?_⟩
  have hchain := hfollows.2
  rw [hsync, strangerNode_chain] at hchain
  rw [hchain]
  refine List.take_of_length_le (le_min le_rfl (Nat.le_add_left_of_le ?_))
  decide

/-- **A call that fails because of another.** The first peer leads the node over to its own first
block, and the second has nothing after a block that is still there. -/
theorem pass_fails_after_reorg :
    Config.validateNodeConfig noAddr crowdedConfig = .ok () ∧
      OwnHashes toyHash (· ∈ kin) ∧
      Reachable toyHash deterministicSampler noAddr (· ∈ kin) crowded ∧
      crowded.chain.blocks.length < crowded.sync.maxLocatorHashes ∧
      Digest.zero ∈ blockLocator toyHash crowded.chain crowded.sync.maxLocatorHashes ∧
      (exchanged toyHash deterministicSampler noAddr strangerFirst crowded).peers =
        [firstAddr, secondAddr] ∧
      (∀ a, Reachable toyHash deterministicSampler noAddr (· ∈ kin) (strangerFirst a) ∧
        (strangerFirst a).chain.config = crowded.chain.config ∧
        Undisturbed noAddr crowded (strangerFirst a) ∧ WithinLimits crowded (strangerFirst a)) ∧
      ¬ ∀ r ∈ (syncOnce toyHash deterministicSampler noAddr
        (fun a => honestPeer toyHash deterministicSampler noAddr (strangerFirst a)) crowded).1,
          r = .ok () := by
  have hzero : Digest.zero ∈ blockLocator toyHash crowded.chain crowded.sync.maxLocatorHashes := by
    refine zero_mem_blockLocator crowded_short ?_
    rw [crowded_facts.1]
    exact List.cons_ne_nil _ _
  refine ⟨by decide +kernel, kin_own, crowded_reachable, crowded_short, hzero, crowded_peers _,
    strangerFirst_ready, fun hall => ?_⟩
  have hstill := (syncOnce_ok_iff kin_own strangerFirst crowded_active crowded_short
    fun a _ => (strangerFirst_ready a).honest).mp hall [firstAddr] secondAddr [] (crowded_peers _)
  have hsame : Untouched crowded
      (exchanged toyHash deterministicSampler noAddr strangerFirst crowded) :=
    exchangeAll_untouched _ _ _ crowded
  obtain ⟨st', hround, hsettings, hchain⟩ := crowded_reorg hsame
  have hpassed : passed toyHash deterministicSampler noAddr strangerFirst crowded [firstAddr] =
      countSync (.ok ()) st' := by
    have hfirst : strangerFirst firstAddr = strangerNode := by rw [strangerFirst, if_pos rfl]
    rw [← hfirst] at hround
    exact passed_one hround
  have hcount : Untouched st' (countSync (.ok ()) st') := countSync_untouched _ _
  have hsync : (countSync (.ok ()) st').sync = Config.SyncConfig.default :=
    sync_of_settings (hcount.settings.trans (hsettings.trans crowded_settings))
  have hsecond : strangerFirst secondAddr = longerNode := by
    rw [strangerFirst, if_neg (by decide)]
  have hpeer : longerNode.sync = Config.SyncConfig.default := by
    rw [longerNode, kinNode_sync]
    rfl
  have hbefore : sharedLength toyHash [trunk] [trunk, left] = 1 := by decide +kernel
  have hafter :
      shared [blockHash toyHash stranger] ([trunk, left].map (blockHash toyHash)) = 0 := by
    decide +kernel
  rw [hpassed, hsecond] at hstill
  rcases hstill with hnone | ⟨-, hle⟩
  · simp only [crowded_facts.1, longerNode_chain, hbefore, hsync, hpeer] at hnone
    cases hnone
  · rw [hcount.chain, sharedLength, sharedLength, hchain] at hle
    simp only [crowded_facts.1, longerNode_chain, hafter] at hle
    rw [sharedLength] at hbefore
    exact absurd (hbefore.symm.trans_le hle) (by decide)

end Chesscoin.Passes

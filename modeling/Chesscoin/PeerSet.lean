import Chesscoin.Lib.Admission
import Chesscoin.Operations

/-!
The peers of a node, over whole runs.

Addresses are offered by the configuration, by greetings, by commands and by the answers of
peer exchanges. The configured ones are taken in by a loop of their own, all others through the
state; both admit by the same rule, so the peers and the count of rejections are what that rule
makes of all offers in their order.
-/

namespace Chesscoin.PeerSet

open Chesscoin.Lib.Admission Chesscoin.Domain Chesscoin.Simulator Chesscoin.Wire
  Chesscoin.Config Chesscoin.Storage Chesscoin.Runtime Chesscoin.Runs Chesscoin.Serving
  Chesscoin.Sync Chesscoin.Operations

/-! ### One rule -/

/-- The addresses a node may have as peers. -/
def admissible (boundAddr advertisedAddr peer : SocketAddr) : Bool :=
  peerAddressIsDialable peer && decide (peer ≠ boundAddr) && decide (peer ≠ advertisedAddr)

/-- What peers depend on and no operation changes. -/
def identity (st : NodeState) : SocketAddr × SocketAddr × NetworkConfig :=
  (st.boundAddr, st.advertisedAddr, st.network)

/-- The peers and the count of rejections. -/
def ledger (st : NodeState) : List SocketAddr × ℕ := (st.peers, st.peerRejections)

/-- What the rule makes of the ledger and some offers. -/
def admitted (st : NodeState) (offers : List SocketAddr) : List SocketAddr × ℕ :=
  admitAll (admissible st.boundAddr st.advertisedAddr) st.network.maxPeers (ledger st) offers

/-- The conditions of the source, none of which may hold. -/
lemma refused_iff (boundAddr advertisedAddr peer : SocketAddr) (maxPeers : ℕ)
    (peers : List SocketAddr) :
    (!peerAddressIsDialable peer ∨ peer = boundAddr ∨ peer = advertisedAddr ∨
        peer ∈ peers ∨ maxPeers ≤ peers.length) ↔
      ¬(admissible boundAddr advertisedAddr peer ∧ peer ∉ peers ∧ peers.length < maxPeers) := by
  simp only [admissible, Bool.and_eq_true, decide_eq_true_eq, Bool.not_eq_true', ← not_lt]
  cases peerAddressIsDialable peer
  · simp
  · simp only [Bool.true_eq_false]
    tauto

/-- The loop over the configured peers. -/
lemma normalizeInitialPeers_eq (boundAddr advertisedAddr : SocketAddr) (maxPeers : ℕ)
    (peers : List SocketAddr) (r : List SocketAddr × ℕ) :
    normalizeInitialPeers boundAddr advertisedAddr maxPeers peers r =
      admitAll (admissible boundAddr advertisedAddr) maxPeers r peers := by
  induction peers generalizing r with
  | nil => rfl
  | cons peer rest ih =>
    obtain ⟨accepted, rejected⟩ := r
    have hrefused := refused_iff boundAddr advertisedAddr peer maxPeers accepted
    rw [normalizeInitialPeers, admitAll_cons]
    by_cases h : admissible boundAddr advertisedAddr peer ∧ peer ∉ accepted ∧
        accepted.length < maxPeers
    · rw [if_neg (not_imp_not.mpr hrefused.mp (not_not.mpr h)), admitOne_taken h, ih]
    · rw [if_pos (hrefused.mpr h), admitOne_refused h, ih]

/-- An operation that offers some addresses admits them by the rule, and changes nothing the rule
depends on. -/
structure Admits (st : NodeState) (offers : List SocketAddr) (st' : NodeState) : Prop where
  identity : identity st' = identity st
  ledger : ledger st' = admitted st offers

variable {st st' st'' : NodeState} {offers more : List SocketAddr}

lemma Admits.none (hidentity : PeerSet.identity st' = PeerSet.identity st)
    (hledger : PeerSet.ledger st' = PeerSet.ledger st) : Admits st [] st' := ⟨hidentity, hledger⟩

lemma Admits.of_besides (h : besides st' = besides st) : Admits st [] st' := by
  have hidentity : PeerSet.identity (besides st') = PeerSet.identity (besides st) :=
    congrArg PeerSet.identity h
  have hledger : PeerSet.ledger (besides st') = PeerSet.ledger (besides st) :=
    congrArg PeerSet.ledger h
  exact ⟨hidentity, hledger⟩

lemma Admits.trans (h : Admits st offers st') (h' : Admits st' more st'') :
    Admits st (offers ++ more) st'' := by
  obtain ⟨hid, hl⟩ := h
  obtain ⟨hid', hl'⟩ := h'
  refine ⟨hid'.trans hid, ?_⟩
  obtain ⟨hbound, hrest⟩ := Prod.mk.inj hid
  obtain ⟨hadvertised, hnetwork⟩ := Prod.mk.inj hrest
  rw [hl', admitted, hl, hbound, hadvertised, hnetwork, admitted, admitted, ← admitAll_append]

/-- An offer to the state. -/
lemma addPeer_admits (peer : SocketAddr) (st : NodeState) :
    Admits st [peer] (addPeer peer st).2 := by
  have hrefused := refused_iff st.boundAddr st.advertisedAddr peer st.network.maxPeers st.peers
  by_cases h : admissible st.boundAddr st.advertisedAddr peer ∧ peer ∉ st.peers ∧
      st.peers.length < st.network.maxPeers
  · rw [addPeer, addPeerToState, if_neg (not_imp_not.mpr hrefused.mp (not_not.mpr h))]
    refine ⟨rfl, ?_⟩
    rw [admitted, admitAll_cons, admitOne_taken h]
    rfl
  · rw [addPeer, addPeerToState, if_pos (hrefused.mpr h)]
    refine ⟨rfl, ?_⟩
    rw [admitted, admitAll_cons, admitOne_refused h]
    rfl

/-! ### Operations -/

variable (hasher : HashPort) (sampler : SamplingPort) (addr : AddrText)

/-- The address a message announces. -/
def messageOffers : PeerMessage → List SocketAddr
  | .hello _ _ _ listenAddr => [listenAddr]
  | _ => []

def streamOffers (stream : Stream) (st : NodeState) : List SocketAddr :=
  match readLimitedLineFrom st.network.maxMessageBytes stream with
  | .ok (some line, _) =>
    match decodeNetworkMessage addr line st.network.wire with
    | .ok message => messageOffers message
    | .error _ => []
  | _ => []

/-- The addresses a peer answers an exchange with. -/
def exchangeOffers (peer : Lib.Text.Str → Option Stream) (limit : ℕ) (st : NodeState) :
    List SocketAddr :=
  match peersFromPeer addr peer limit st with
  | .ok advertised => advertised
  | .error () => []

/-- The operations of a node, with the addresses that are offered in them. -/
inductive PeerStep : NodeState → List SocketAddr → NodeState → Prop
  | stream {st : NodeState} (stream : Stream) (written : Bool) :
      PeerStep st (streamOffers addr stream st)
        (handleStream hasher sampler addr stream written st).state
  | addPeer {st : NodeState} (peer : SocketAddr) : PeerStep st [peer] (addPeer peer st).2
  | exchange {st : NodeState} (peer : Lib.Text.Str → Option Stream) (limit : ℕ) :
      PeerStep st (exchangeOffers addr peer limit st) (exchangePeersWith addr peer limit st).2
  | mine {st st' : NodeState} {block : Block} (trainingSeed samplingEntropy : UInt64) :
      mineOnce hasher sampler trainingSeed samplingEntropy st = some (.ok (st', block)) →
      PeerStep st [] st'
  | answer {st : NodeState} (answer : Answer) :
      PeerStep st [] (settleAnswer hasher sampler answer st).2
  | countSync {st : NodeState} (result : Except Unit Unit) : PeerStep st [] (countSync result st)
  | recordBroadcast {st : NodeState} (sent failed : ℕ) :
      PeerStep st [] (recordBroadcast sent failed st)
  | recordHelloAnnouncements {st : NodeState} (sent failed : ℕ) :
      PeerStep st [] (recordHelloAnnouncements sent failed st)
  | dropInboundConnection {st : NodeState} : PeerStep st [] (dropInboundConnection st)
  | refuseMiner {st : NodeState} : PeerStep st [] (countMalformed st)

/-- A run, with all the addresses that were offered in it. -/
inductive PeerRun (st₀ : NodeState) : List SocketAddr → NodeState → Prop
  | start : PeerRun st₀ [] st₀
  | step {offers more : List SocketAddr} {st st' : NodeState} :
      PeerRun st₀ offers st → PeerStep hasher sampler addr st more st' →
      PeerRun st₀ (offers ++ more) st'

variable {hasher sampler addr}

lemma respond_admits (responses : List PeerMessage) (written : Bool) (st : NodeState) :
    Admits st [] (respond responses written st).state := by
  unfold respond recordResponseResult
  split <;> exact .none rfl rfl

lemma respondWithin_admits (locator : List Digest) (responses : List PeerMessage)
    (written : Bool) (st : NodeState) :
    Admits st [] (respondWithin locator responses written st).state := by
  unfold respondWithin
  split
  · exact .none rfl rfl
  · exact respond_admits responses written st

lemma handleMessage_admits (message : PeerMessage) (written : Bool) (st : NodeState) :
    Admits st (messageOffers message) (handleMessage hasher sampler message written st).state := by
  cases message with
  | hello _ _ _ listenAddr => exact addPeer_admits listenAddr st
  | block block =>
    rw [handleMessage, handleBlock_state]
    exact .of_besides (applyIncomingBlock_besides block .gossip st)
  | getBlocks _ _ => exact respond_admits _ written st
  | getPeers _ => exact respond_admits _ written st
  | getBlocksByLocator locator _ => exact respondWithin_admits locator _ written st
  | getInventory locator _ => exact respondWithin_admits locator _ written st
  | getHeaders locator _ => exact respondWithin_admits locator _ written st
  | endBlocks => exact .none rfl rfl
  | inventory _ => exact .none rfl rfl
  | headers _ => exact .none rfl rfl
  | peers _ => exact .none rfl rfl

lemma handleStream_admits (stream : Stream) (written : Bool) (st : NodeState) :
    Admits st (streamOffers addr stream st)
      (handleStream hasher sampler addr stream written st).state := by
  unfold streamOffers handleStream
  rcases readLimitedLineFrom st.network.maxMessageBytes stream with e | ⟨_ | line, rest⟩
  · cases e <;> exact .none rfl rfl
  · exact .none rfl rfl
  · simp only
    cases decodeNetworkMessage addr line st.network.wire with
    | ok message => exact handleMessage_admits message written st
    | error e =>
      simp only [countUndecodable]
      split <;> exact .none rfl rfl

lemma addPeers_admits (offers : List SocketAddr) (st : NodeState) :
    Admits st offers (offers.foldl (fun st candidate => (addPeer candidate st).2) st) := by
  induction offers generalizing st with
  | nil => exact .none rfl rfl
  | cons peer rest ih => exact (addPeer_admits peer st).trans (ih _)

lemma settleAnswer_admits (answer : Answer) (st : NodeState) :
    Admits st [] (settleAnswer hasher sampler answer st).2 := by
  cases answer with
  | oversized => exact .none rfl rfl
  | refused => exact .none rfl rfl
  | complete blocks =>
    simp only [settleAnswer]
    split
    · exact .none rfl rfl
    · exact .of_besides (applyBatch_besides blocks st)

/-- **Every operation admits what it is offered**, by the one rule. -/
theorem PeerStep.admits (h : PeerStep hasher sampler addr st offers st') :
    Admits st offers st' := by
  cases h with
  | stream stream written => exact handleStream_admits stream written st
  | addPeer peer => exact addPeer_admits peer st
  | exchange peer limit =>
    unfold exchangeOffers exchangePeersWith
    cases peersFromPeer addr peer limit st with
    | ok advertised => exact addPeers_admits advertised st
    | error _ => exact .none rfl rfl
  | mine _ _ hmine => exact .of_besides (mineOnce_besides hmine)
  | answer answer => exact settleAnswer_admits answer st
  | countSync result => cases result <;> exact .none rfl rfl
  | recordBroadcast _ _ => exact .none rfl rfl
  | recordHelloAnnouncements _ _ =>
    unfold Operations.recordHelloAnnouncements
    split <;> exact .none rfl rfl
  | dropInboundConnection => exact .none rfl rfl
  | refuseMiner => exact .none rfl rfl

lemma PeerRun.admits (h : PeerRun hasher sampler addr st offers st') : Admits st offers st' := by
  induction h with
  | start => exact .none rfl rfl
  | step _ hstep ih => exact ih.trans hstep.admits

/-! ### Advertisements -/

lemma advertise_spec (limit : ℕ) (offers : List SocketAddr) {peers : List SocketAddr}
    (hnodup : peers.Nodup) (hlen : peers.length ≤ limit) :
    (advertise limit offers peers).Nodup ∧ (advertise limit offers peers).length ≤ limit ∧
      peers <+: advertise limit offers peers := by
  induction offers generalizing peers with
  | nil => exact ⟨hnodup, hlen, List.prefix_rfl⟩
  | cons peer rest ih =>
    rw [advertise]
    split
    · exact ⟨hnodup, hlen, List.prefix_rfl⟩
    · next hroom =>
      split
      · exact ih hnodup hlen
      · next hnew =>
        have hnodup' : (peers ++ [peer]).Nodup := by
          rw [List.nodup_append]
          refine ⟨hnodup, List.nodup_singleton peer, fun b hb c hc hbc => hnew ?_⟩
          rwa [← List.mem_singleton.mp hc, ← hbc]
        obtain ⟨hall, hle, hpre⟩ := ih hnodup' (by
          rw [List.length_append, List.length_singleton]
          omega)
        exact ⟨hall, hle, (List.prefix_append _ _).trans hpre⟩

lemma peerAdvertisement_spec (st : NodeState) (limit : ℕ) :
    (peerAdvertisement st limit).Nodup ∧ (peerAdvertisement st limit).length ≤ limit ∧
      (0 < limit → (peerAdvertisement st limit).head? = some st.advertisedAddr) := by
  obtain ⟨hnodup, hlen, -⟩ := advertise_spec limit (st.advertisedAddr :: st.peers)
    List.nodup_nil (Nat.zero_le _)
  refine ⟨hnodup, hlen, fun hpos => ?_⟩
  have hfirst : peerAdvertisement st limit = advertise limit st.peers [st.advertisedAddr] := by
    rw [peerAdvertisement, advertise, if_neg (by rw [List.length_nil]; omega),
      if_neg (by simp)]
    rfl
  obtain ⟨-, -, rest, hrest⟩ := advertise_spec limit st.peers
    (List.nodup_singleton st.advertisedAddr) hpos
  rw [hfirst, ← hrest]
  rfl

/-! ### Runs -/

/-- The peers a node may have, and what it has done with all that were offered. -/
structure PeersKept (offered : ℕ) (st : NodeState) : Prop where
  nodup : st.peers.Nodup
  bounded : st.peers.length ≤ st.network.maxPeers
  notBound : st.boundAddr ∉ st.peers
  notAdvertised : st.advertisedAddr ∉ st.peers
  dialable : ∀ peer ∈ st.peers, peerAddressIsDialable peer = true
  accounted : st.peers.length + st.peerRejections = offered

/-- The ledger of a node that starts is what the rule makes of the configured peers. -/
lemma startNode_ledger {config : NodeConfig} {boundAddr : SocketAddr} {storage : Option Disk}
    (h : startNode hasher sampler addr config boundAddr storage = .ok st) :
    ledger st = admitAll (admissible st.boundAddr st.advertisedAddr) st.network.maxPeers ([], 0)
      config.peers := by
  unfold startNode at h
  split at h
  · cases h
  · simp only at h
    split at h
    · cases h
    · split at h
      · cases h
      · cases h
        simp only [ledger, initialState, normalizeInitialPeers_eq]

lemma kept_of_ledger (h : ledger st = admitAll (admissible st.boundAddr st.advertisedAddr)
    st.network.maxPeers ([], 0) offers) : PeersKept offers.length st := by
  have hadmitted := (Admitted.empty (admissible st.boundAddr st.advertisedAddr)
    st.network.maxPeers).admitAll offers
  rw [← h, Nat.zero_add] at hadmitted
  have hallowed : ∀ peer ∈ st.peers, peerAddressIsDialable peer = true ∧ peer ≠ st.boundAddr ∧
      peer ≠ st.advertisedAddr := by
    intro peer hpeer
    have := hadmitted.allowed peer hpeer
    simpa [admissible, and_assoc] using this
  exact ⟨hadmitted.nodup, hadmitted.bounded, fun hmem => (hallowed _ hmem).2.1 rfl,
    fun hmem => (hallowed _ hmem).2.2 rfl, fun peer hpeer => (hallowed peer hpeer).1,
    hadmitted.accounted⟩

variable (hasher sampler addr)

/-- **The peer set of a node.** From every start and after every sequence of operations the peers
have no duplicates, are no more than the node may have, are dialable and not the node itself;
with the rejections they account for every address that was offered; none of them is ever
dropped; and an advertisement starts with the node itself and has no duplicates and no more
than the limit. -/
theorem peer_set (config : NodeConfig) (boundAddr : SocketAddr) (storage : Option Disk)
    (st₀ st : NodeState) (offers : List SocketAddr)
    (hstart : startNode hasher sampler addr config boundAddr storage = .ok st₀)
    (hrun : PeerRun hasher sampler addr st₀ offers st) :
    PeersKept (config.peers.length + offers.length) st ∧
      (∀ more st', PeerRun hasher sampler addr st more st' → st.peers <+: st'.peers) ∧
      ∀ limit, (peerAdvertisement st limit).Nodup ∧ (peerAdvertisement st limit).length ≤ limit ∧
        (0 < limit → (peerAdvertisement st limit).head? = some st.advertisedAddr) := by
  refine ⟨?_, fun more st' hmore => ?_, peerAdvertisement_spec st⟩
  · obtain ⟨hid, hledger⟩ := hrun.admits
    obtain ⟨hbound, hrest⟩ := Prod.mk.inj hid
    obtain ⟨hadvertised, hnetwork⟩ := Prod.mk.inj hrest
    rw [admitted, startNode_ledger hstart, ← admitAll_append, ← hbound, ← hadvertised,
      ← hnetwork] at hledger
    rw [← List.length_append]
    exact kept_of_ledger hledger
  · have hledger := congrArg Prod.fst hmore.admits.ledger
    have hpeers : st'.peers = (admitted st more).1 := hledger
    rw [hpeers]
    exact admitAll_isPrefix (ledger st) more

/-- A peer that is offered twice is one peer and one rejection. -/
theorem peer_set_offered_twice :
    PeersKept 2 (addPeer (.v4 0x7f000001 9334)
      (addPeer (.v4 0x7f000001 9334) (freshNode ⟨1, 1, 0⟩ none)).2).2 :=
  (peer_set Adapters.toyHash Adapters.deterministicSampler ⟨fun _ => [], fun _ => none⟩
    { NodeConfig.localhostEphemeral "node".toList with chain := ⟨1, 1, 0⟩ }
    (.v4 0x7f000001 9333) none (freshNode ⟨1, 1, 0⟩ none) _ _ rfl
    ((PeerRun.start.step (.addPeer (.v4 0x7f000001 9334))).step
      (.addPeer (.v4 0x7f000001 9334)))).1

end Chesscoin.PeerSet

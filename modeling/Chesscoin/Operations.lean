import Chesscoin.ActiveView
import Chesscoin.Sync

/-!
All that a running node does, one locked section at a time.

`Runs` says what a step can do to the blocks of a node and leaves its counters and its peers
open. Here a step is one of the operations of the source, with the event it stands for, so that
what the node counts and whom it knows can be followed through a run. An operation mines a
block, takes in a block it was sent or a batch it was answered with, or leaves blocks alone.
-/

namespace Chesscoin.Operations

open Chesscoin.Lib.Linked Chesscoin.Domain Chesscoin.Simulator Chesscoin.Validation
  Chesscoin.ForkChoice Chesscoin.ForkTree Chesscoin.Wire Chesscoin.Storage Chesscoin.Config
  Chesscoin.Runtime Chesscoin.Runs Chesscoin.ActiveView Chesscoin.Serving Chesscoin.Sync

/-! ### Traffic -/

def recordBroadcast (sent failed : ℕ) (st : NodeState) : NodeState :=
  { st with
    outboundBlocks := st.outboundBlocks + sent
    failedBroadcasts := st.failedBroadcasts + failed }

def recordHelloAnnouncements (sent failed : ℕ) (st : NodeState) : NodeState :=
  if sent = 0 ∧ failed = 0 then st
  else
    { st with
      helloAnnouncements := st.helloAnnouncements + sent
      failedHelloAnnouncements := st.failedHelloAnnouncements + failed }

def dropInboundConnection (st : NodeState) : NodeState :=
  { st with droppedInboundConnections := st.droppedInboundConnections + 1 }

/-! ### Events -/

inductive Event
  | mined (block : Block)
  | gossip (block : Block) (application : BlockApplication)
  /-- A line too long to read, or one that is not a message of this network. -/
  | unreadable
  | answer
  | aside
  deriving DecidableEq

section

variable (hasher : HashPort) (sampler : SamplingPort) (addr : AddrText)

/-- What the message of a line is to a node. -/
def messageEvent (message : PeerMessage) (st : NodeState) : Event :=
  match message with
  | .block block => .gossip block (applyIncomingBlock hasher sampler block .gossip st).1
  | _ => .aside

/-- What a connection is to a node. -/
def streamEvent (stream : Stream) (st : NodeState) : Event :=
  match readLimitedLineFrom st.network.maxMessageBytes stream with
  | .ok (none, _) => .aside
  | .error .oversized => .unreadable
  | .error .io => .aside
  | .ok (some line, _) =>
    match decodeNetworkMessage addr line st.network.wire with
    | .ok message => messageEvent hasher sampler message st
    | .error _ => .unreadable

/-- The operations of a node, with the blocks that come up in them drawn from `B`. -/
inductive NodeStep (B : Block → Prop) : NodeState → Event → NodeState → Prop
  | mine {st st' : NodeState} {block : Block} (trainingSeed samplingEntropy : UInt64) :
      mineOnce hasher sampler trainingSeed samplingEntropy st = some (.ok (st', block)) →
      B block → NodeStep B st (.mined block) st'
  | stream {st : NodeState} (stream : Stream) (written : Bool) :
      (∀ block r, streamEvent hasher sampler addr stream st = .gossip block r → B block) →
      NodeStep B st (streamEvent hasher sampler addr stream st)
        (handleStream hasher sampler addr stream written st).state
  | answer {st : NodeState} (answer : Answer) : (∀ b ∈ answered answer, B b) →
      NodeStep B st .answer (settleAnswer hasher sampler answer st).2
  | addPeer {st : NodeState} (peer : SocketAddr) : NodeStep B st .aside (addPeer peer st).2
  | countSync {st : NodeState} (result : Except Unit Unit) :
      NodeStep B st .aside (countSync result st)
  | recordBroadcast {st : NodeState} (sent failed : ℕ) :
      NodeStep B st .aside (recordBroadcast sent failed st)
  | recordHelloAnnouncements {st : NodeState} (sent failed : ℕ) :
      NodeStep B st .aside (recordHelloAnnouncements sent failed st)
  | dropInboundConnection {st : NodeState} : NodeStep B st .aside (dropInboundConnection st)
  /-- A miner configuration that is not valid is refused. -/
  | refuseMiner {st : NodeState} : NodeStep B st .aside (countMalformed st)

/-- A run: the operations of a node one after the other, with their events in order. -/
inductive NodeRun (B : Block → Prop) (st₀ : NodeState) : List Event → NodeState → Prop
  | start : NodeRun B st₀ [] st₀
  | step {events : List Event} {event : Event} {st st' : NodeState} :
      NodeRun B st₀ events st → NodeStep hasher sampler addr B st event st' →
      NodeRun B st₀ (events ++ [event]) st'

/-- A node that has just been started, with blocks of `B` in its log. -/
def Started (B : Block → Prop) (st : NodeState) : Prop :=
  (∃ nodeConfig boundAddr storage,
    startNode hasher sampler addr nodeConfig boundAddr storage = .ok st) ∧
    ∀ k n, st.forkChoice.look k = some n → B n.block

end

variable {hasher : HashPort} {sampler : SamplingPort} {addr : AddrText} {B : Block → Prop}
  {st₀ st st' st'' : NodeState} {event : Event} {events : List Event}

/-! ### What operations leave alone -/

/-- The counters of blocks are as they were, and no peer is lost. -/
structure SameCounts (st st' : NodeState) : Prop where
  mined : st'.minedBlocks = st.minedBlocks
  accepted : st'.acceptedBlocks = st.acceptedBlocks
  synced : st'.syncedBlocks = st.syncedBlocks
  rejected : st'.rejectedBlocks = st.rejectedBlocks
  peers : st.peers <+: st'.peers

lemma SameCounts.refl (st : NodeState) : SameCounts st st :=
  ⟨rfl, rfl, rfl, rfl, List.prefix_rfl⟩

lemma SameCounts.trans (h : SameCounts st st') (h' : SameCounts st' st'') : SameCounts st st'' :=
  ⟨h'.mined.trans h.mined, h'.accepted.trans h.accepted, h'.synced.trans h.synced,
    h'.rejected.trans h.rejected, h.peers.trans h'.peers⟩

lemma activateBestChain_counts (hasher : HashPort) (sampler : SamplingPort) (st : NodeState) :
    SameCounts st (activateBestChain hasher sampler st).2 := by
  unfold activateBestChain
  split
  · exact .refl st
  · split <;> exact ⟨rfl, rfl, rfl, rfl, List.prefix_rfl⟩

lemma persistBlock_counts (hasher : HashPort) (block : Block) (st : NodeState) :
    SameCounts st (persistBlock hasher block st) := by
  unfold persistBlock
  split <;> exact ⟨rfl, rfl, rfl, rfl, List.prefix_rfl⟩

lemma countReorg_counts (activated : Bool) (oldHead hash : Digest) (block : Block)
    (st : NodeState) : SameCounts st (countReorg hasher activated oldHead hash block st) := by
  unfold countReorg
  split <;> exact ⟨rfl, rfl, rfl, rfl, List.prefix_rfl⟩

/-- Blocks and what is counted of them are as they were. -/
structure Aside (st st' : NodeState) : Prop where
  chain : st'.chain = st.chain
  forkChoice : st'.forkChoice = st.forkChoice
  storage : st'.storage = st.storage
  mined : st'.minedBlocks = st.minedBlocks
  accepted : st'.acceptedBlocks = st.acceptedBlocks
  synced : st'.syncedBlocks = st.syncedBlocks
  peers : st.peers <+: st'.peers

lemma Aside.refl (st : NodeState) : Aside st st :=
  ⟨rfl, rfl, rfl, rfl, rfl, rfl, List.prefix_rfl⟩

/-- What an operation is that takes in no block: a line that could not be read is counted with
the rejected blocks, and nothing else is. -/
def Quiet (st : NodeState) (event : Event) (st' : NodeState) : Prop :=
  Aside st st' ∧
    (event = .unreadable ∧ st'.rejectedBlocks = st.rejectedBlocks + 1 ∨
      event = .aside ∧ st'.rejectedBlocks = st.rejectedBlocks)

lemma Quiet.aside (h : Aside st st') (hrejected : st'.rejectedBlocks = st.rejectedBlocks) :
    Quiet st .aside st' := ⟨h, .inr ⟨rfl, hrejected⟩⟩

lemma addPeer_quiet (peer : SocketAddr) (st : NodeState) :
    Quiet st .aside (addPeer peer st).2 := by
  by_cases h : !peerAddressIsDialable peer ∨ peer = st.boundAddr ∨ peer = st.advertisedAddr ∨
      peer ∈ st.peers ∨ st.network.maxPeers ≤ st.peers.length
  · rw [addPeer, addPeerToState, if_pos h]
    exact .aside ⟨rfl, rfl, rfl, rfl, rfl, rfl, List.prefix_rfl⟩ rfl
  · rw [addPeer, addPeerToState, if_neg h]
    exact .aside ⟨rfl, rfl, rfl, rfl, rfl, rfl, List.prefix_append _ _⟩ rfl

lemma countMalformed_quiet (st : NodeState) : Quiet st .aside (countMalformed st) :=
  .aside ⟨rfl, rfl, rfl, rfl, rfl, rfl, List.prefix_rfl⟩ rfl

lemma respond_quiet (responses : List PeerMessage) (written : Bool) (st : NodeState) :
    Quiet st .aside (respond responses written st).state := by
  unfold respond recordResponseResult
  split
  · exact .aside (.refl st) rfl
  · exact .aside ⟨rfl, rfl, rfl, rfl, rfl, rfl, List.prefix_rfl⟩ rfl

lemma respondWithin_quiet (locator : List Digest) (responses : List PeerMessage)
    (written : Bool) (st : NodeState) :
    Quiet st .aside (respondWithin locator responses written st).state := by
  unfold respondWithin
  split
  · exact countMalformed_quiet st
  · exact respond_quiet responses written st

lemma countUndecodable_quiet (line : Lib.Text.Str) (st : NodeState) :
    Quiet st .unreadable (countUndecodable line st) := by
  unfold countUndecodable
  simp only
  split <;> exact ⟨⟨rfl, rfl, rfl, rfl, rfl, rfl, List.prefix_rfl⟩, .inl ⟨rfl, rfl⟩⟩

lemma handleBlock_state (block : Block) (st : NodeState) :
    (handleBlock hasher sampler block st).state =
      (applyIncomingBlock hasher sampler block .gossip st).2 := by
  unfold handleBlock
  rcases applyIncomingBlock hasher sampler block .gossip st with ⟨r, st'⟩
  cases r <;> rfl

/-- **A message** is a block that is taken in, or it is answered and counted. -/
theorem handleMessage_cases (hasher : HashPort) (sampler : SamplingPort)
    (message : PeerMessage) (written : Bool) (st : NodeState) :
    (∃ block, messageEvent hasher sampler message st =
          .gossip block (applyIncomingBlock hasher sampler block .gossip st).1 ∧
        (handleMessage hasher sampler message written st).state =
          (applyIncomingBlock hasher sampler block .gossip st).2) ∨
      Quiet st (messageEvent hasher sampler message st)
        (handleMessage hasher sampler message written st).state := by
  cases message with
  | block block => exact .inl ⟨block, rfl, handleBlock_state block st⟩
  | hello _ _ _ listenAddr => exact .inr (addPeer_quiet listenAddr st)
  | getBlocks fromHeight limit => exact .inr (respond_quiet _ written st)
  | getBlocksByLocator locator limit => exact .inr (respondWithin_quiet locator _ written st)
  | getInventory locator limit => exact .inr (respondWithin_quiet locator _ written st)
  | getHeaders locator limit => exact .inr (respondWithin_quiet locator _ written st)
  | getPeers limit => exact .inr (respond_quiet _ written st)
  | endBlocks => exact .inr (countMalformed_quiet st)
  | inventory _ => exact .inr (countMalformed_quiet st)
  | headers _ => exact .inr (countMalformed_quiet st)
  | peers _ => exact .inr (countMalformed_quiet st)

/-- **A connection** brings one block, or none. -/
theorem handleStream_cases (hasher : HashPort) (sampler : SamplingPort) (addr : AddrText)
    (stream : Stream) (written : Bool) (st : NodeState) :
    (∃ block, streamEvent hasher sampler addr stream st =
          .gossip block (applyIncomingBlock hasher sampler block .gossip st).1 ∧
        (handleStream hasher sampler addr stream written st).state =
          (applyIncomingBlock hasher sampler block .gossip st).2) ∨
      Quiet st (streamEvent hasher sampler addr stream st)
        (handleStream hasher sampler addr stream written st).state := by
  unfold streamEvent handleStream
  rcases readLimitedLineFrom st.network.maxMessageBytes stream with e | ⟨_ | line, rest⟩
  · cases e with
    | oversized =>
      exact .inr ⟨⟨rfl, rfl, rfl, rfl, rfl, rfl, List.prefix_rfl⟩, .inl ⟨rfl, rfl⟩⟩
    | io => exact .inr (countMalformed_quiet st)
  · exact .inr (.aside (.refl st) rfl)
  · simp only
    cases decodeNetworkMessage addr line st.network.wire with
    | ok message => exact handleMessage_cases hasher sampler message written st
    | error e => exact .inr (countUndecodable_quiet line st)

/-- **All that an operation can be.** -/
theorem NodeStep.cases (h : NodeStep hasher sampler addr B st event st') :
    (∃ block trainingSeed samplingEntropy, event = .mined block ∧ B block ∧
        mineOnce hasher sampler trainingSeed samplingEntropy st = some (.ok (st', block))) ∨
      (∃ block, event = .gossip block (applyIncomingBlock hasher sampler block .gossip st).1 ∧
        B block ∧ st' = (applyIncomingBlock hasher sampler block .gossip st).2) ∨
      (∃ answer, event = .answer ∧ (∀ b ∈ answered answer, B b) ∧
        st' = (settleAnswer hasher sampler answer st).2) ∨
      Quiet st event st' := by
  cases h with
  | mine _ _ hmine hB => exact .inl ⟨_, _, _, rfl, hB, hmine⟩
  | stream stream written hB =>
    rcases handleStream_cases hasher sampler addr stream written st with
      ⟨block, hevent, hstate⟩ | hquiet
    · exact .inr (.inl ⟨block, hevent, hB block _ hevent, hstate⟩)
    · exact .inr (.inr (.inr hquiet))
  | answer answer hB => exact .inr (.inr (.inl ⟨answer, rfl, hB, rfl⟩))
  | addPeer peer => exact .inr (.inr (.inr (addPeer_quiet peer st)))
  | countSync result =>
    refine .inr (.inr (.inr ?_))
    cases result with
    | ok _ => exact .aside (.refl st) rfl
    | error _ => exact .aside ⟨rfl, rfl, rfl, rfl, rfl, rfl, List.prefix_rfl⟩ rfl
  | recordBroadcast sent failed =>
    exact .inr (.inr (.inr (.aside ⟨rfl, rfl, rfl, rfl, rfl, rfl, List.prefix_rfl⟩ rfl)))
  | recordHelloAnnouncements sent failed =>
    refine .inr (.inr (.inr ?_))
    unfold Operations.recordHelloAnnouncements
    split
    · exact .aside (.refl st) rfl
    · exact .aside ⟨rfl, rfl, rfl, rfl, rfl, rfl, List.prefix_rfl⟩ rfl
  | dropInboundConnection =>
    exact .inr (.inr (.inr (.aside ⟨rfl, rfl, rfl, rfl, rfl, rfl, List.prefix_rfl⟩ rfl)))
  | refuseMiner => exact .inr (.inr (.inr (countMalformed_quiet st)))

/-- Every operation is a step. -/
lemma NodeStep.step (h : NodeStep hasher sampler addr B st event st') :
    Step hasher sampler B st st' := by
  rcases h.cases with ⟨block, _, _, -, hB, hmine⟩ | ⟨block, -, hB, rfl⟩ | ⟨answer, -, hB, rfl⟩ |
    ⟨haside, -⟩
  · exact .mine _ _ hmine hB
  · exact .incoming block .gossip hB
  · exact .batch answer hB
  · exact .other haside.chain haside.forkChoice haside.storage

lemma Started.start (h : Started hasher sampler addr B st) : Start hasher sampler addr B st := by
  obtain ⟨⟨nodeConfig, boundAddr, storage, hstart⟩, hknown⟩ := h
  obtain ⟨-, hchains⟩ := startNode_ok hstart
  exact ⟨nodeConfig.chain, hchains, hknown⟩

/-- A node that starts on the local host without a log. -/
lemma freshNode_started :
    Started hasher sampler addr B (freshNode ⟨1, 1, 0⟩ none) :=
  ⟨⟨{ NodeConfig.localhostEphemeral "node".toList with chain := ⟨1, 1, 0⟩ },
    .v4 0x7f000001 9333, none, rfl⟩, known_new _⟩

lemma NodeRun.steps (h : NodeRun hasher sampler addr B st₀ events st) :
    Relation.ReflTransGen (Step hasher sampler B) st₀ st := by
  induction h with
  | start => exact .refl
  | step _ hstep ih => exact ih.tail hstep.step

lemma NodeRun.reachable (hstart : Started hasher sampler addr B st₀)
    (h : NodeRun hasher sampler addr B st₀ events st) : Reachable hasher sampler addr B st :=
  ⟨st₀, hstart.start, h.steps⟩

end Chesscoin.Operations

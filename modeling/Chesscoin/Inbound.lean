import Chesscoin.PeerSet

/-!
What a connection from outside can do to a node.

A node reads one line from a connection. A block that is genuine, unknown and valid after its
parent, is taken in; a greeting adds its address when that is a new peer there is room for;
every other line leaves the blocks and the peers alone, whatever it claims to be.
-/

namespace Chesscoin.Inbound

open Chesscoin.Domain Chesscoin.Simulator Chesscoin.Validation Chesscoin.ForkChoice
  Chesscoin.ForkTree Chesscoin.Wire Chesscoin.Config Chesscoin.Runtime Chesscoin.Runs
  Chesscoin.Serving Chesscoin.Operations Chesscoin.PeerSet

variable (hasher : HashPort) (sampler : SamplingPort) (addr : AddrText)

/-! ### Lines and their effects -/

/-- The message the line of a connection decodes to. -/
def inboundMessage (stream : Stream) (st : NodeState) : Option PeerMessage :=
  match readLimitedLineFrom st.network.maxMessageBytes stream with
  | .ok (some line, _) =>
    match decodeNetworkMessage addr line st.network.wire with
    | .ok message => some message
    | .error _ => none
  | _ => none

/-- A block that is unknown and valid after a known parent, or as a first block. -/
def Genuine (st : NodeState) (block : Block) : Prop :=
  st.forkChoice.look (blockHash hasher block) = none ∧
    ∃ ctx score, st.forkChoice.parentContext block = .ok (ctx, score) ∧
      Valid hasher sampler st.forkChoice.config ctx block

/-- An address a node takes as a peer. -/
def NewPeer (st : NodeState) (peer : SocketAddr) : Prop :=
  peerAddressIsDialable peer = true ∧ peer ≠ st.boundAddr ∧ peer ≠ st.advertisedAddr ∧
    peer ∉ st.peers ∧ st.peers.length < st.network.maxPeers

structure SameBlocks (st st' : NodeState) : Prop where
  chain : st'.chain = st.chain
  forkChoice : st'.forkChoice = st.forkChoice
  storage : st'.storage = st.storage
  acceptedBlocks : st'.acceptedBlocks = st.acceptedBlocks
  reorgs : st'.reorgs = st.reorgs

/-- The states differ in the diagnostic counters of lines and answers only. -/
def Diagnosed (st st' : NodeState) : Prop :=
  st' = { st with
    rejectedBlocks := st'.rejectedBlocks
    malformedMessages := st'.malformedMessages
    incompatibleMessages := st'.incompatibleMessages
    oversizedMessages := st'.oversizedMessages
    failedResponses := st'.failedResponses }

variable {hasher sampler addr} {st : NodeState} {block : Block}

lemma respond_diagnosed (responses : List PeerMessage) (written : Bool) (st : NodeState) :
    Diagnosed st (respond responses written st).state := by
  unfold respond recordResponseResult
  split <;> rfl

lemma respondWithin_diagnosed (locator : List Digest) (responses : List PeerMessage)
    (written : Bool) (st : NodeState) :
    Diagnosed st (respondWithin locator responses written st).state := by
  unfold respondWithin
  split
  · rfl
  · exact respond_diagnosed responses written st

/-- A block that is not genuine is known or counted. -/
lemma applyIncomingBlock_not_genuine (h : ¬ Genuine hasher sampler st block) :
    ∃ r, r ≠ .accepted ∧ ∃ n, applyIncomingBlock hasher sampler block .gossip st =
      (r, { st with rejectedBlocks := n }) := by
  rcases applyIncomingBlock_cases hasher sampler block .gossip st with
    ⟨-, hr⟩ | ⟨e, -, hr⟩ | ⟨st', hnew, hins, -⟩
  · exact ⟨.alreadyKnown, by decide, st.rejectedBlocks, hr⟩
  · exact ⟨.rejected, by decide, st.rejectedBlocks + 1, hr⟩
  · obtain ⟨ctx, score, hctx, hvalid, -⟩ := insertBlock_taken hnew hins
    exact absurd ⟨hnew, ctx, score, hctx, hvalid⟩ h

/-- A genuine block is accepted, and is known after that. -/
lemma applyIncomingBlock_genuine (h : Genuine hasher sampler st block) :
    ∃ st', applyIncomingBlock hasher sampler block .gossip st = (.accepted, st') ∧
      ∃ node, st'.forkChoice.look (blockHash hasher block) = some node ∧ node.block = block := by
  obtain ⟨hnew, ctx, score, hctx, hvalid⟩ := h
  have hins := insertBlock_valid hnew hctx hvalid
  rcases applyIncomingBlock_cases hasher sampler block .gossip st with
    ⟨hc, -⟩ | ⟨e, hr, -⟩ | ⟨st', -, hins', -, -, hr⟩
  · rw [(not_containsBlock_iff _).mpr hnew] at hc
    cases hc
  · rw [hins] at hr
    cases hr
  · refine ⟨st', hr, ?_⟩
    rw [hins] at hins'
    obtain ⟨-, hfc⟩ := Prod.mk.inj hins'
    rw [← hfc]
    exact ⟨_, addNode_forkNode_look _ score block, rfl⟩

/-- An address that is no new peer is counted. -/
lemma addPeer_cases (peer : SocketAddr) (st : NodeState) :
    (NewPeer st peer ∧ (addPeer peer st).2 = { st with peers := st.peers ++ [peer] }) ∨
      (¬ NewPeer st peer ∧
        (addPeer peer st).2 = { st with peerRejections := st.peerRejections + 1 }) := by
  have hrefused := refused_iff st.boundAddr st.advertisedAddr peer st.network.maxPeers st.peers
  have hnew : NewPeer st peer ↔ admissible st.boundAddr st.advertisedAddr peer ∧
      peer ∉ st.peers ∧ st.peers.length < st.network.maxPeers := by
    simp only [NewPeer, admissible, Bool.and_eq_true, decide_eq_true_eq, and_assoc]
  by_cases h : NewPeer st peer
  · refine .inl ⟨h, ?_⟩
    rw [addPeer, addPeerToState,
      if_neg (not_imp_not.mpr hrefused.mp (not_not.mpr (hnew.mp h)))]
  · refine .inr ⟨h, ?_⟩
    rw [addPeer, addPeerToState, if_pos (hrefused.mpr fun hall => h (hnew.mpr hall))]

/-! ### One line -/

/-- **All that a connection can do**: take in a genuine block, count one that is not, take a new
peer, count an address, or move diagnostic counters. -/
theorem handleStream_effect (hasher : HashPort) (sampler : SamplingPort) (addr : AddrText)
    (stream : Stream) (written : Bool) (st : NodeState) :
    (∃ b, inboundMessage addr stream st = some (.block b) ∧ Genuine hasher sampler st b ∧
        ∃ st', applyIncomingBlock hasher sampler b .gossip st = (.accepted, st') ∧
          (handleStream hasher sampler addr stream written st) = ⟨[], some b, st'⟩) ∨
      (∃ b, inboundMessage addr stream st = some (.block b) ∧ ¬ Genuine hasher sampler st b ∧
        ∃ n, (handleStream hasher sampler addr stream written st).state =
          { st with rejectedBlocks := n }) ∨
      (∃ nodeId height head a, inboundMessage addr stream st = some (.hello nodeId height head a) ∧
        ((NewPeer st a ∧ (handleStream hasher sampler addr stream written st).state =
            { st with peers := st.peers ++ [a] }) ∨
          (¬ NewPeer st a ∧ (handleStream hasher sampler addr stream written st).state =
            { st with peerRejections := st.peerRejections + 1 }))) ∨
      ((∀ b, inboundMessage addr stream st ≠ some (.block b)) ∧
        (∀ nodeId height head a,
          inboundMessage addr stream st ≠ some (.hello nodeId height head a)) ∧
        Diagnosed st (handleStream hasher sampler addr stream written st).state) := by
  unfold inboundMessage handleStream
  rcases readLimitedLineFrom st.network.maxMessageBytes stream with e | ⟨_ | line, rest⟩
  · refine .inr (.inr (.inr ⟨by simp, by simp, ?_⟩))
    cases e <;> rfl
  · exact .inr (.inr (.inr ⟨by simp, by simp, rfl⟩))
  · simp only
    cases decodeNetworkMessage addr line st.network.wire with
    | error e =>
      refine .inr (.inr (.inr ⟨by simp, by simp, ?_⟩))
      simp only [countUndecodable]
      split <;> rfl
    | ok message =>
      cases message with
      | block b =>
        by_cases hgenuine : Genuine hasher sampler st b
        · obtain ⟨st', happly, -⟩ := applyIncomingBlock_genuine hgenuine
          refine .inl ⟨b, rfl, hgenuine, st', happly, ?_⟩
          simp only [handleMessage, handleBlock, happly]
        · obtain ⟨r, -, n, happly⟩ := applyIncomingBlock_not_genuine hgenuine
          refine .inr (.inl ⟨b, rfl, hgenuine, n, ?_⟩)
          simp only [handleMessage, handleBlock_state, happly]
      | hello nodeId height head a =>
        exact .inr (.inr (.inl ⟨nodeId, height, head, a, rfl, addPeer_cases a st⟩))
      | getBlocks _ _ =>
        exact .inr (.inr (.inr ⟨by simp, by simp, respond_diagnosed _ written st⟩))
      | getPeers _ =>
        exact .inr (.inr (.inr ⟨by simp, by simp, respond_diagnosed _ written st⟩))
      | getBlocksByLocator locator _ =>
        exact .inr (.inr (.inr ⟨by simp, by simp, respondWithin_diagnosed locator _ written st⟩))
      | getInventory locator _ =>
        exact .inr (.inr (.inr ⟨by simp, by simp, respondWithin_diagnosed locator _ written st⟩))
      | getHeaders locator _ =>
        exact .inr (.inr (.inr ⟨by simp, by simp, respondWithin_diagnosed locator _ written st⟩))
      | endBlocks => exact .inr (.inr (.inr ⟨by simp, by simp, rfl⟩))
      | inventory _ => exact .inr (.inr (.inr ⟨by simp, by simp, rfl⟩))
      | headers _ => exact .inr (.inr (.inr ⟨by simp, by simp, rfl⟩))
      | peers _ => exact .inr (.inr (.inr ⟨by simp, by simp, rfl⟩))

lemma sameBlocks_of_diagnosed {st' : NodeState} (h : Diagnosed st st') : SameBlocks st st' := by
  rw [Diagnosed] at h
  rw [h]
  exact ⟨rfl, rfl, rfl, rfl, rfl⟩

/-- A line that brings a genuine block is handed on, and the block is known after it. -/
lemma handleStream_genuine {stream : Stream} (written : Bool)
    (hmessage : inboundMessage addr stream st = some (.block block))
    (h : Genuine hasher sampler st block) :
    (handleStream hasher sampler addr stream written st).relayed = some block ∧
      ∃ node, (handleStream hasher sampler addr stream written st).state.forkChoice.look
        (blockHash hasher block) = some node ∧ node.block = block := by
  rcases handleStream_effect hasher sampler addr stream written st with
    ⟨b, hb, -, st', happly, heq⟩ | ⟨b, hb, hnot, -⟩ | ⟨_, _, _, _, hhello, -⟩ | ⟨hno, -⟩
  · rw [hmessage] at hb
    cases hb
    rw [heq]
    obtain ⟨st'', happly', hknown⟩ := applyIncomingBlock_genuine h
    rw [happly] at happly'
    cases happly'
    exact ⟨rfl, hknown⟩
  · rw [hmessage] at hb
    cases hb
    exact absurd h hnot
  · rw [hmessage] at hhello
    cases hhello
  · exact absurd hmessage (hno block)

variable (hasher sampler addr)

/-- The state after a connection. -/
def afterStream (stream : Stream) (written : Bool) (st : NodeState) : NodeState :=
  (handleStream hasher sampler addr stream written st).state

variable {hasher sampler addr} {stream : Stream} {written : Bool}

lemma blocks_unless_genuine
    (hno : ¬ ∃ b, inboundMessage addr stream st = some (.block b) ∧
      Genuine hasher sampler st b) :
    SameBlocks st (afterStream hasher sampler addr stream written st) := by
  rcases handleStream_effect hasher sampler addr stream written st with
    ⟨b, hb, hgenuine, -⟩ | ⟨_, _, _, n, hstate⟩ |
      ⟨_, _, _, _, _, ⟨_, hstate⟩ | ⟨_, hstate⟩⟩ | ⟨_, _, hdiagnosed⟩
  · exact absurd ⟨b, hb, hgenuine⟩ hno
  · rw [afterStream, hstate]
    exact ⟨rfl, rfl, rfl, rfl, rfl⟩
  · rw [afterStream, hstate]
    exact ⟨rfl, rfl, rfl, rfl, rfl⟩
  · rw [afterStream, hstate]
    exact ⟨rfl, rfl, rfl, rfl, rfl⟩
  · exact sameBlocks_of_diagnosed hdiagnosed

lemma peers_unless_new
    (hno : ¬ ∃ nodeId height head a,
      inboundMessage addr stream st = some (.hello nodeId height head a) ∧ NewPeer st a) :
    (afterStream hasher sampler addr stream written st).peers = st.peers := by
  rcases handleStream_effect hasher sampler addr stream written st with
    ⟨b, -, -, st', happly, heq⟩ | ⟨_, _, _, n, hstate⟩ |
      ⟨nodeId, height, head, a, hmessage, ⟨hnew, -⟩ | ⟨-, hstate⟩⟩ | ⟨_, _, hdiagnosed⟩
  · have hbesides : besides (applyIncomingBlock hasher sampler b .gossip st).2 = besides st :=
      applyIncomingBlock_besides b .gossip st
    rw [happly] at hbesides
    have hpeers : (besides st').peers = (besides st).peers := congrArg NodeState.peers hbesides
    rw [afterStream, heq]
    exact hpeers
  · rw [afterStream, hstate]
  · exact absurd ⟨nodeId, height, head, a, hmessage, hnew⟩ hno
  · rw [afterStream, hstate]
  · rw [afterStream, hdiagnosed]

lemma peers_of_new {nodeId : Lib.Text.Str} {height : UInt64} {head : Digest} {a : SocketAddr}
    (hmessage : inboundMessage addr stream st = some (.hello nodeId height head a))
    (hnew : NewPeer st a) :
    (afterStream hasher sampler addr stream written st).peers = st.peers ++ [a] := by
  rcases handleStream_effect hasher sampler addr stream written st with ⟨b, hb, -⟩ |
    ⟨b, hb, -⟩ | ⟨_, _, _, a', hhello, ⟨-, hstate⟩ | ⟨hold, -⟩⟩ | ⟨-, hno, -⟩
  · rw [hmessage] at hb
    cases hb
  · rw [hmessage] at hb
    cases hb
  · rw [hmessage] at hhello
    cases hhello
    rw [afterStream, hstate]
  · rw [hmessage] at hhello
    cases hhello
    exact absurd hnew hold
  · exact absurd hmessage (hno nodeId height head a)

lemma state_of_not_genuine
    (hmessage : inboundMessage addr stream st = some (.block block))
    (hnot : ¬ Genuine hasher sampler st block) :
    ∃ n, afterStream hasher sampler addr stream written st = { st with rejectedBlocks := n } := by
  rcases handleStream_effect hasher sampler addr stream written st with
    ⟨b', hb', hgenuine, -⟩ | ⟨_, _, _, hn⟩ | ⟨_, _, _, _, hhello, -⟩ | ⟨hno, -⟩
  · rw [hmessage] at hb'
    cases hb'
    exact absurd hgenuine hnot
  · exact hn
  · rw [hmessage] at hhello
    cases hhello
  · exact absurd hmessage (hno block)

lemma diagnosed_of_other
    (hblock : ∀ b, inboundMessage addr stream st ≠ some (.block b))
    (hhello : ∀ nodeId height head a,
      inboundMessage addr stream st ≠ some (.hello nodeId height head a)) :
    Diagnosed st (afterStream hasher sampler addr stream written st) := by
  rcases handleStream_effect hasher sampler addr stream written st with
    ⟨b, hb, -⟩ | ⟨b, hb, -⟩ | ⟨_, _, _, _, hmessage, -⟩ | ⟨_, _, hdiagnosed⟩
  · exact absurd hb (hblock b)
  · exact absurd hb (hblock b)
  · exact absurd hmessage (hhello _ _ _ _)
  · exact hdiagnosed

variable (hasher sampler addr)

/-- **Inbound traffic can only do what its kind allows.** Blocks change with a genuine block only,
and peers with the greeting of a new peer only, by that peer; a block that is not genuine moves
one counter, and does not keep the genuine block of its hash out; and all other lines move
diagnostic counters. -/
theorem inbound_frame (stream : Stream) (written : Bool) (st : NodeState) :
    ((¬ ∃ b, inboundMessage addr stream st = some (.block b) ∧ Genuine hasher sampler st b) →
        SameBlocks st (afterStream hasher sampler addr stream written st)) ∧
      ((¬ ∃ nodeId height head a,
          inboundMessage addr stream st = some (.hello nodeId height head a) ∧ NewPeer st a) →
        (afterStream hasher sampler addr stream written st).peers = st.peers) ∧
      (∀ nodeId height head a,
        inboundMessage addr stream st = some (.hello nodeId height head a) → NewPeer st a →
        (afterStream hasher sampler addr stream written st).peers = st.peers ++ [a]) ∧
      (∀ b, inboundMessage addr stream st = some (.block b) → ¬ Genuine hasher sampler st b →
        (∃ n, afterStream hasher sampler addr stream written st =
          { st with rejectedBlocks := n }) ∧
        ∀ b' stream' written', blockHash hasher b' = blockHash hasher b →
          Genuine hasher sampler st b' →
          inboundMessage addr stream' (afterStream hasher sampler addr stream written st) =
            some (.block b') →
          (handleStream hasher sampler addr stream' written'
            (afterStream hasher sampler addr stream written st)).relayed = some b' ∧
          ∃ node, (afterStream hasher sampler addr stream' written'
            (afterStream hasher sampler addr stream written st)).forkChoice.look
              (blockHash hasher b) = some node ∧ node.block = b') ∧
      ((∀ b, inboundMessage addr stream st ≠ some (.block b)) →
        (∀ nodeId height head a,
          inboundMessage addr stream st ≠ some (.hello nodeId height head a)) →
        Diagnosed st (afterStream hasher sampler addr stream written st)) := by
  refine ⟨blocks_unless_genuine, peers_unless_new, fun _ _ _ _ => peers_of_new,
    fun b hmessage hnot => ⟨state_of_not_genuine hmessage hnot, ?_⟩, diagnosed_of_other⟩
  intro b' stream' written' hhash hgenuine hmessage'
  have hstill :
      Genuine hasher sampler (afterStream hasher sampler addr stream written st) b' := by
    obtain ⟨n, hn⟩ : ∃ n, afterStream hasher sampler addr stream written st =
        { st with rejectedBlocks := n } := state_of_not_genuine hmessage hnot
    rw [hn]
    exact hgenuine
  rw [← hhash]
  exact handleStream_genuine written' hmessage' hstill

end Chesscoin.Inbound

import Chesscoin.Locator
import Chesscoin.Runtime

/-!
What a node does with a line it is sent.

A connection carries one line. A block is taken in and, when it was new, handed on to the
node's peers; a greeting adds a peer; a request is answered from the active chain, within the
limits of the node; anything else is counted.
-/

namespace Chesscoin.Serving

open Chesscoin.Lib.ByteString Chesscoin.Lib.Text Chesscoin.Domain Chesscoin.Simulator
  Chesscoin.Validation Chesscoin.ForkChoice Chesscoin.Wire Chesscoin.Config Chesscoin.Runtime
  Chesscoin.Locator

variable (hasher : HashPort) (sampler : SamplingPort) (addr : AddrText)

/-! ### Peers -/

def addPeerToState (peer : SocketAddr) (st : NodeState) : Bool × NodeState :=
  if !peerAddressIsDialable peer ∨ peer = st.boundAddr ∨ peer = st.advertisedAddr ∨
      peer ∈ st.peers ∨ st.network.maxPeers ≤ st.peers.length then (false, st)
  else (true, { st with peers := st.peers ++ [peer] })

def addPeer (peer : SocketAddr) (st : NodeState) : Bool × NodeState :=
  match addPeerToState peer st with
  | (true, st) => (true, st)
  | (false, st) => (false, { st with peerRejections := st.peerRejections + 1 })

/-- The peers of a list in its order, none twice, up to the limit. -/
def advertise (limit : ℕ) : List SocketAddr → List SocketAddr → List SocketAddr
  | [], peers => peers
  | peer :: rest, peers =>
    if limit ≤ peers.length then peers
    else advertise limit rest (if peer ∈ peers then peers else peers ++ [peer])

def peerAdvertisement (st : NodeState) (limit : ℕ) : List SocketAddr :=
  advertise limit (st.advertisedAddr :: st.peers) []

/-! ### Answers -/

/-- A request for blocks is answered up to the node's own limit. -/
def responseLimit (requestedLimit : Usize) (st : NodeState) : ℕ :=
  min requestedLimit.toNat st.sync.maxBlocksPerResponse

def serveInventory (locator : List Digest) (requestedLimit : Usize) (st : NodeState) :
    List PeerMessage :=
  [.inventory (inventoryAfterLocator hasher st.chain locator (responseLimit requestedLimit st))]

def serveHeaders (locator : List Digest) (requestedLimit : Usize) (st : NodeState) :
    List PeerMessage :=
  [.headers (headersAfterLocator hasher st.chain locator (responseLimit requestedLimit st))]

def servePeers (requestedLimit : Usize) (st : NodeState) : List PeerMessage :=
  [.peers (peerAdvertisement st (min requestedLimit.toNat st.network.maxPeers))]

/-- Blocks and the end marker after them. -/
def blockMessages (blocks : List Block) : List PeerMessage :=
  blocks.map .block ++ [.endBlocks]

def serveBlocks (fromHeight : UInt64) (requestedLimit : Usize) (st : NodeState) :
    List PeerMessage :=
  blockMessages ((st.chain.blocks.drop fromHeight.toNat).take (responseLimit requestedLimit st))

def serveBlocksByLocator (locator : List Digest) (requestedLimit : Usize) (st : NodeState) :
    List PeerMessage :=
  blockMessages (blocksAfterLocator hasher st.chain locator (responseLimit requestedLimit st))

/-- `written` says whether all of the answer could be written. -/
def recordResponseResult (written : Bool) (st : NodeState) : NodeState :=
  if written then st else { st with failedResponses := st.failedResponses + 1 }

/-! ### Lines -/

/-- What a line leads to: the messages written back, a block to hand on to the peers, and the
state after it. -/
structure Reaction where
  responses : List PeerMessage
  relayed : Option Block
  state : NodeState

/-- Nothing is written back. -/
def quiet (st : NodeState) : Reaction := ⟨[], none, st⟩

def respond (responses : List PeerMessage) (written : Bool) (st : NodeState) : Reaction :=
  ⟨responses, none, recordResponseResult written st⟩

def countMalformed (st : NodeState) : NodeState :=
  { st with malformedMessages := st.malformedMessages + 1 }

/-- A request with a locator is answered when the locator is not too long. -/
def respondWithin (locator : List Digest) (responses : List PeerMessage) (written : Bool)
    (st : NodeState) : Reaction :=
  if st.sync.maxLocatorHashes < locator.length then quiet (countMalformed st)
  else respond responses written st

def handleBlock (block : Block) (st : NodeState) : Reaction :=
  match applyIncomingBlock hasher sampler block .gossip st with
  | (.accepted, st) => ⟨[], some block, st⟩
  | (_, st) => quiet st

def handleMessage (message : PeerMessage) (written : Bool) (st : NodeState) : Reaction :=
  match message with
  | .hello _ _ _ listenAddr => quiet (addPeer listenAddr st).2
  | .getBlocks fromHeight limit => respond (serveBlocks fromHeight limit st) written st
  | .getBlocksByLocator locator limit =>
    respondWithin locator (serveBlocksByLocator hasher locator limit st) written st
  | .getInventory locator limit =>
    respondWithin locator (serveInventory hasher locator limit st) written st
  | .getHeaders locator limit =>
    respondWithin locator (serveHeaders hasher locator limit st) written st
  | .getPeers limit => respond (servePeers limit st) written st
  | .block block => handleBlock hasher sampler block st
  | .endBlocks => quiet (countMalformed st)
  | .inventory _ => quiet (countMalformed st)
  | .headers _ => quiet (countMalformed st)
  | .peers _ => quiet (countMalformed st)

def countUndecodable (line : Str) (st : NodeState) : NodeState :=
  let st := { st with rejectedBlocks := st.rejectedBlocks + 1 }
  if wireMagic.isPrefixOf line then
    { st with incompatibleMessages := st.incompatibleMessages + 1 }
  else countMalformed st

def handleStream (stream : Stream) (written : Bool) (st : NodeState) : Reaction :=
  match readLimitedLineFrom st.network.maxMessageBytes stream with
  | .ok (none, _) => quiet st
  | .error .oversized =>
    quiet { st with
      rejectedBlocks := st.rejectedBlocks + 1
      oversizedMessages := st.oversizedMessages + 1 }
  | .error .io => quiet (countMalformed st)
  | .ok (some line, _) =>
    match decodeNetworkMessage addr line st.network.wire with
    | .ok message => handleMessage hasher sampler message written st
    | .error _ => quiet (countUndecodable line st)

/-- The bytes of one message on a connection. -/
def writePeerMessage (wire : WireConfig) (message : PeerMessage) : Bytes :=
  utf8 (encodeNetworkMessage addr wire message ++ ['\n'])

/-- What comes back from a node for the line of a request, when nothing is lost on the way
and the node closes the connection after its answer. -/
def answerOf (st : NodeState) (request : Str) : Stream :=
  let reaction := handleStream hasher sampler addr ⟨utf8 request, false⟩ true st
  ⟨reaction.responses.flatMap (writePeerMessage addr st.network.wire), false⟩

/-- A node that is reached under an address, as what comes back from it. -/
def honestPeer (st : NodeState) (request : Str) : Option Stream :=
  some (answerOf hasher sampler addr st request)

end Chesscoin.Serving

import Chesscoin.Config
import Chesscoin.Storage

/-!
The node: its state and what it does with a block it mines, a block it is sent, and a batch
of blocks a peer answers a request with.

Each operation is one section under the node's lock, so it is a function on the state. What
lies outside the node enters as an argument or as part of the state: the bytes a peer sends,
and how the calls to the file system turn out.
-/

namespace Chesscoin.Runtime

open Chesscoin.Lib.ByteString Chesscoin.Lib.Text Chesscoin.Domain Chesscoin.Simulator
  Chesscoin.Validation Chesscoin.ForkChoice Chesscoin.Wire Chesscoin.Storage Chesscoin.Config

variable (hasher : HashPort) (sampler : SamplingPort) (addr : AddrText)

structure NodeState where
  nodeId : Str
  boundAddr : SocketAddr
  advertisedAddr : SocketAddr
  chain : ChainState
  forkChoice : ForkChoiceState
  peers : List SocketAddr
  acceptedBlocks : ℕ
  rejectedBlocks : ℕ
  minedBlocks : ℕ
  reorgs : ℕ
  malformedMessages : ℕ
  incompatibleMessages : ℕ
  oversizedMessages : ℕ
  outboundBlocks : ℕ
  failedBroadcasts : ℕ
  failedResponses : ℕ
  helloAnnouncements : ℕ
  failedHelloAnnouncements : ℕ
  droppedInboundConnections : ℕ
  peerRejections : ℕ
  syncedBlocks : ℕ
  failedSyncs : ℕ
  storageFailures : ℕ
  storage : Option Disk
  network : NetworkConfig
  sync : SyncConfig

/-! ### Starting -/

inductive StartError
  | config (error : String)
  | storage (error : LoadError)
  deriving DecidableEq

/-- The chain and the fork choice a node starts with. -/
def initialChains (config : ChainConfig) (storage : Option Disk) :
    Except LoadError (ChainState × ForkChoiceState) :=
  match storage with
  | none => .ok (ChainState.new config, ForkChoiceState.new config)
  | some disk => loadChains hasher sampler addr disk.file config

/-- The state a node starts with, once its chains are known. -/
def initialState (config : NodeConfig) (boundAddr : SocketAddr) (storage : Option Disk)
    (chains : ChainState × ForkChoiceState) : NodeState :=
  let advertisedAddr := config.advertiseAddr.getD boundAddr
  let (peers, peerRejections) := normalizeInitialPeers boundAddr advertisedAddr
    config.network.maxPeers config.peers ([], 0)
  { nodeId := config.nodeId, boundAddr, advertisedAddr
    chain := chains.1, forkChoice := chains.2, peers
    acceptedBlocks := 0, rejectedBlocks := 0, minedBlocks := 0, reorgs := 0
    malformedMessages := 0, incompatibleMessages := 0, oversizedMessages := 0
    outboundBlocks := 0, failedBroadcasts := 0, failedResponses := 0
    helloAnnouncements := 0, failedHelloAnnouncements := 0
    droppedInboundConnections := 0, peerRejections, syncedBlocks := 0, failedSyncs := 0
    storageFailures := 0, storage, sync := config.sync
    network :=
      { config.network with
        wire :=
          { config.network.wire with chainFingerprint := chainFingerprint config.chain } } }

/-- A node bound to an address, with the log of its data directory if it has one. -/
def startNode (config : NodeConfig) (boundAddr : SocketAddr) (storage : Option Disk) :
    Except StartError NodeState :=
  match validateNodeConfig addr config with
  | .error e => .error (.config e)
  | .ok () =>
    let advertisedAddr := config.advertiseAddr.getD boundAddr
    if !peerAddressIsDialable advertisedAddr then
      .error (.config ("advertise_addr must be dialable, got " ++
        String.ofList (addr.display advertisedAddr)))
    else match initialChains hasher sampler addr config.chain storage with
      | .error e => .error (.storage e)
      | .ok chains => .ok (initialState config boundAddr storage chains)

/-! ### Blocks -/

/-- The active chain is replayed when the best tip is not its head. A replay that fails
leaves the state as it is. -/
def activateBestChain (st : NodeState) : Except BlockValidationError Bool × NodeState :=
  if st.chain.headHash hasher = st.forkChoice.bestHash then (.ok false, st)
  else match chainFromBlocks hasher sampler st.forkChoice.config st.forkChoice.bestChain with
    | .error e => (.error e, st)
    | .ok chain => (.ok true, { st with chain })

def persistBlock (block : Block) (st : NodeState) : NodeState :=
  match st.storage with
  | none => st
  | some disk =>
    let (written, disk) := disk.append hasher st.chain.config block
    { st with
      storage := some disk
      storageFailures := if written then st.storageFailures else st.storageFailures + 1 }

/-- `none` is a search for a nonce that never ends, and an error is the text of a panic. -/
def mineOnce (trainingSeed samplingEntropy : UInt64) (st : NodeState) :
    Option (Except String (NodeState × Block)) :=
  match st.forkChoice.mineNextBlock hasher trainingSeed samplingEntropy with
  | none => none
  | some block =>
    match st.forkChoice.insertBlock hasher sampler block with
    | (.error _, _) => some (.error "locally mined block should validate")
    | (.ok _, forkChoice) =>
      match activateBestChain hasher sampler { st with forkChoice } with
      | (.error _, _) => some (.error "locally mined chain should activate")
      | (.ok _, st) =>
        let st := persistBlock hasher block st
        some (.ok ({ st with minedBlocks := st.minedBlocks + 1 }, block))

inductive BlockSource
  | gossip
  | sync
  deriving DecidableEq

inductive BlockApplication
  | accepted
  | alreadyKnown
  | rejected
  deriving DecidableEq

def countAccepted (source : BlockSource) (st : NodeState) : NodeState :=
  match source with
  | .gossip => { st with acceptedBlocks := st.acceptedBlocks + 1 }
  | .sync => { st with syncedBlocks := st.syncedBlocks + 1 }

def countRejected (source : BlockSource) (st : NodeState) : NodeState :=
  match source with
  | .gossip => { st with rejectedBlocks := st.rejectedBlocks + 1 }
  | .sync => st

/-- A reorganisation is a new head that does not follow the old one. -/
def countReorg (activated : Bool) (oldHead hash : Digest) (block : Block) (st : NodeState) :
    NodeState :=
  if activated ∧ oldHead ≠ Digest.zero ∧ block.header.previousBlock ≠ oldHead ∧
      st.chain.headHash hasher = hash then { st with reorgs := st.reorgs + 1 }
  else st

def applyIncomingBlock (block : Block) (source : BlockSource) (st : NodeState) :
    BlockApplication × NodeState :=
  let hash := blockHash hasher block
  if st.forkChoice.containsBlock hash then (.alreadyKnown, st)
  else
    let oldHead := st.chain.headHash hasher
    match st.forkChoice.insertBlock hasher sampler block with
    | (.error _, _) => (.rejected, countRejected source st)
    | (.ok _, forkChoice) =>
      let st := persistBlock hasher block { st with forkChoice }
      let (activated, st) := activateBestChain hasher sampler st
      let st := countReorg hasher activated.isOk oldHead hash block st
      (.accepted, countAccepted source st)

/-! ### Batches -/

/-- The trial insertion of a batch into a copy of the fork choice. -/
def insertBatch (forkChoice : ForkChoiceState) : List Block → Except ForkChoiceError ForkChoiceState
  | [] => .ok forkChoice
  | block :: rest =>
    if forkChoice.containsBlock (blockHash hasher block) then insertBatch forkChoice rest
    else match forkChoice.insertBlock hasher sampler block with
      | (.error e, _) => .error e
      | (.ok _, forkChoice) => insertBatch forkChoice rest

def validateSyncBatch (blocks : List Block) (st : NodeState) : Except Unit Unit :=
  match insertBatch hasher sampler st.forkChoice blocks with
  | .error _ => .error ()
  | .ok forkChoice =>
    match chainFromBlocks hasher sampler forkChoice.config forkChoice.bestChain with
    | .error _ => .error ()
    | .ok _ => .ok ()

/-- The blocks one after another, until one is rejected. -/
def applyBatch : List Block → NodeState → Except Unit Unit × NodeState
  | [], st => (.ok (), st)
  | block :: rest, st =>
    match applyIncomingBlock hasher sampler block .sync st with
    | (.rejected, st) => (.error (), st)
    | (_, st) => applyBatch rest st

/-! ### Reading from a peer -/

/-- What can be read of a connection: bytes, and then its end or an error. -/
structure Stream where
  bytes : Bytes
  fails : Bool

inductive IncomingReadError
  | oversized
  | io
  deriving DecidableEq

/-- A line with its newline, or what there is before the end, and what follows it. -/
def readBytes (maxMessageBytes : ℕ) (fails : Bool) :
    ℕ → Bytes → Except IncomingReadError (Bytes × Bytes)
  | _, [] => if fails then .error .io else .ok ([], [])
  | length, byte :: rest =>
    if maxMessageBytes < length + 1 then .error .oversized
    else if byte = 10 then .ok ([byte], rest)
    else (readBytes maxMessageBytes fails (length + 1) rest).map fun r => (byte :: r.1, r.2)

def readLimitedLineFrom (maxMessageBytes : ℕ) (s : Stream) :
    Except IncomingReadError (Option Str × Stream) :=
  match readBytes maxMessageBytes s.fails 0 s.bytes with
  | .error e => .error e
  | .ok ([], rest) => .ok (none, { s with bytes := rest })
  | .ok (line, rest) =>
    match fromUtf8 line with
    | none => .error .io
    | some line => .ok (some line, { s with bytes := rest })

/-- The lines that can be read one after the other, up to the end or the first error. Every
line takes a byte at least. -/
def readLines (maxMessageBytes : ℕ) : ℕ → Stream → List (Except IncomingReadError Str)
  | 0, _ => []
  | fuel + 1, s =>
    match readLimitedLineFrom maxMessageBytes s with
    | .error e => [.error e]
    | .ok (none, _) => []
    | .ok (some line, s) => .ok line :: readLines maxMessageBytes fuel s

def Stream.lines (maxMessageBytes : ℕ) (s : Stream) : List (Except IncomingReadError Str) :=
  readLines maxMessageBytes (s.bytes.length + 1) s

/-- What the lines of an answer come to. -/
inductive Answer
  | oversized
  | refused
  | complete (blocks : List Block)

/-- The blocks of an answer, each with the hash that is expected in its place, up to the end
marker. -/
def receiveBlocks (wire : WireConfig) (expectedHashes : List Digest) (received : List Block) :
    List (Except IncomingReadError Str) → Answer
  | [] => .refused
  | .error .oversized :: _ => .oversized
  | .error .io :: _ => .refused
  | .ok line :: rest =>
    match decodeNetworkMessage addr line wire with
    | .error _ => .refused
    | .ok (.block block) =>
      match expectedHashes[received.length]? with
      | none => .refused
      | some expectedHash =>
        if blockHash hasher block ≠ expectedHash then .refused
        else receiveBlocks wire expectedHashes (received ++ [block]) rest
    | .ok .endBlocks =>
      if received.length = expectedHashes.length then .complete received else .refused
    | .ok _ => .refused

/-- The part of a sync that changes the state, once the answer has been read. -/
def settleAnswer (answer : Answer) (st : NodeState) : Except Unit Unit × NodeState :=
  match answer with
  | .oversized => (.error (), { st with oversizedMessages := st.oversizedMessages + 1 })
  | .refused => (.error (), st)
  | .complete received =>
    match validateSyncBatch hasher sampler received st with
    | .error () => (.error (), st)
    | .ok () => applyBatch hasher sampler received st

/-- `peer` is what comes back for the line of a request: `none` when the connection or the
sending fails. -/
def blocksFromPeer (peer : Str → Option Stream) (locator expectedHashes : List Digest)
    (st : NodeState) : Except Unit Unit × NodeState :=
  let request := encodeNetworkMessage addr st.network.wire
    (.getBlocksByLocator locator (UInt64.ofNat expectedHashes.length)) ++ ['\n']
  match peer request with
  | none => (.error (), st)
  | some stream =>
    settleAnswer hasher sampler
      (receiveBlocks hasher addr st.network.wire expectedHashes []
        (stream.lines st.network.maxMessageBytes)) st

end Chesscoin.Runtime

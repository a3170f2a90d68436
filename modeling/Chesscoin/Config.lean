import Chesscoin.Wire

/-!
The configuration of a node and its checks, and which peer addresses a node takes.

The checks are made in a fixed order and the first that fails gives the error text.
Durations are in nanoseconds.
-/

namespace Chesscoin.Config

open Chesscoin.Lib.Text Chesscoin.Domain Chesscoin.Validation Chesscoin.Wire

structure NetworkConfig where
  wire : WireConfig
  maxMessageBytes : ℕ
  maxPeers : ℕ
  maxInboundConnections : ℕ
  connectTimeout : ℕ
  readTimeout : ℕ
  writeTimeout : ℕ
  deriving DecidableEq

structure SyncConfig where
  enabled : Bool
  interval : ℕ
  maxBlocksPerResponse : ℕ
  maxLocatorHashes : ℕ
  deriving DecidableEq

structure MinerConfig where
  interval : ℕ
  deriving DecidableEq

structure NodeConfig where
  nodeId : Str
  listenAddr : SocketAddr
  advertiseAddr : Option SocketAddr
  peers : List SocketAddr
  chain : ChainConfig
  miner : Option MinerConfig
  /-- The data directory. -/
  storage : Option Str
  network : NetworkConfig
  sync : SyncConfig

def second : ℕ := 1000000000

def NetworkConfig.default : NetworkConfig :=
  ⟨WireConfig.default, 1024 * 1024, 64, 64, second / 2, 5 * second, 5 * second⟩

def SyncConfig.default : SyncConfig := ⟨true, 5 * second, 128, 32⟩

/-- A node on a free port of the local host. -/
def NodeConfig.localhostEphemeral (nodeId : Str) : NodeConfig :=
  { nodeId
    listenAddr := .v4 0x7f000001 0
    advertiseAddr := none
    peers := []
    chain := ChainConfig.default
    miner := none
    storage := none
    network := NetworkConfig.default
    sync := SyncConfig.default }

/-! ### Addresses -/

def port : SocketAddr → UInt16
  | .v4 _ p => p
  | .v6 _ p _ _ => p

def ipIsUnspecified : SocketAddr → Bool
  | .v4 ip _ => ip == 0
  | .v6 ip _ _ _ => ip == 0

/-- The first four bits of a version 4 group address are 1110, the first eight of a version 6
one are ones. -/
def ipIsMulticast : SocketAddr → Bool
  | .v4 ip _ => ip >>> 28 == 0xe
  | .v6 ip _ _ _ => ip >>> 120 == 0xff

def ipIsBroadcast : SocketAddr → Bool
  | .v4 ip _ => ip == BitVec.allOnes 32
  | .v6 .. => false

def peerAddressIsDialable (peer : SocketAddr) : Bool :=
  port peer != 0 && !ipIsUnspecified peer && !ipIsMulticast peer && !ipIsBroadcast peer

/-- The configured peers a node starts with and the number it turns down. -/
def normalizeInitialPeers (boundAddr advertisedAddr : SocketAddr) (maxPeers : ℕ) :
    List SocketAddr → List SocketAddr × ℕ → List SocketAddr × ℕ
  | [], r => r
  | peer :: rest, (accepted, rejected) =>
    if !peerAddressIsDialable peer ∨ peer = boundAddr ∨ peer = advertisedAddr ∨
        peer ∈ accepted ∨ maxPeers ≤ accepted.length then
      normalizeInitialPeers boundAddr advertisedAddr maxPeers rest (accepted, rejected + 1)
    else
      normalizeInitialPeers boundAddr advertisedAddr maxPeers rest (accepted ++ [peer], rejected)

/-! ### Checks -/

def minMaxMessageBytes : ℕ := 128

def chainConfigErrorText : ChainConfigError → String
  | .stepsPerBlockZero => "steps_per_block must be greater than zero"
  | .samplesPerBlockZero => "samples_per_block must be greater than zero"
  | .samplesExceedSteps samples steps =>
    "samples_per_block (" ++ toString samples ++
      ") must be less than or equal to steps_per_block (" ++ toString steps ++ ")"
  | .difficultyExceedsDigestBits difficulty max =>
    "difficulty_zero_bits (" ++ toString difficulty ++ ") cannot exceed digest width (" ++
      toString max ++ ")"

/-- The checks of a configuration, in order, each with the text of its error. -/
def nodeConfigChecks (addr : AddrText) (config : NodeConfig) : List (Bool × String) :=
  [(!isBlank config.nodeId, "node_id must not be empty"),
    match config.chain.validate with
    | .ok () => (true, "")
    | .error e => (false, "invalid chain config: " ++ chainConfigErrorText e),
    (!isBlank config.network.wire.networkId, "network_id must not be empty"),
    (config.network.wire.protocolVersion != 0, "protocol_version must be greater than zero"),
    (config.advertiseAddr.isSome || !ipIsUnspecified config.listenAddr,
      "advertise_addr is required when listen_addr uses an unspecified IP"),
    match config.advertiseAddr with
    | none => (true, "")
    | some a => (peerAddressIsDialable a,
      "advertise_addr must be dialable, got " ++ String.ofList (addr.display a)),
    (minMaxMessageBytes ≤ config.network.maxMessageBytes,
      "max_message_bytes must be at least " ++ toString minMaxMessageBytes),
    (config.network.maxPeers != 0, "max_peers must be greater than zero"),
    (config.network.maxInboundConnections != 0,
      "max_inbound_connections must be greater than zero"),
    (config.network.connectTimeout != 0, "connect_timeout must be greater than zero"),
    (config.network.readTimeout != 0, "read_timeout must be greater than zero"),
    (config.network.writeTimeout != 0, "write_timeout must be greater than zero"),
    (!config.sync.enabled || config.sync.interval != 0,
      "sync interval must be greater than zero"),
    (!config.sync.enabled || config.sync.maxBlocksPerResponse != 0,
      "sync max_blocks_per_response must be greater than zero"),
    (!config.sync.enabled || config.sync.maxLocatorHashes != 0,
      "sync max_locator_hashes must be greater than zero"),
    (config.miner.all (·.interval != 0), "miner interval must be greater than zero"),
    (config.storage.all (· ≠ []), "storage data_dir must not be empty")]

def validateNodeConfig (addr : AddrText) (config : NodeConfig) : Except String Unit :=
  match (nodeConfigChecks addr config).find? (fun check => !check.1) with
  | none => .ok ()
  | some (_, text) => .error text

end Chesscoin.Config

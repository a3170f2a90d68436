import Chesscoin.Validation

/-!
The wire format: a message is a line of fields between bars, and on the network it stands in
an envelope with the magic, the protocol version, the network id and the fingerprint of the
chain configuration.

Decoding reads the fields in a fixed order and returns the first error. The text of a socket
address is the standard library's; it enters as a pair of functions.
-/

namespace Chesscoin.Wire

open Chesscoin.Lib.ByteString Chesscoin.Lib.Text Chesscoin.Domain Chesscoin.Validation

/-! ### Addresses -/

inductive SocketAddr
  | v4 (ip : BitVec 32) (port : UInt16)
  | v6 (ip : BitVec 128) (port : UInt16) (flowinfo scopeId : UInt32)
  deriving DecidableEq

/-- How addresses are written and read. -/
structure AddrText where
  display : SocketAddr → Str
  fromStr : Str → Option SocketAddr

/-! ### Messages -/

def wireMagic : Str := "CHESSCOIN".toList
def protocolVersion : UInt16 := 6
def chainRulesVersion : Str := "v1".toList

structure WireConfig where
  networkId : Str
  chainFingerprint : Str
  protocolVersion : UInt16
  deriving DecidableEq

def chainFingerprint (config : ChainConfig) : Str :=
  "rules=".toList ++ chainRulesVersion ++ ";model_width=".toList ++ showNat modelWidth ++
    ";learning_rate_ppm=".toList ++ showInt learningRatePpm.toInt ++ ";steps=".toList ++
    showNat config.stepsPerBlock.toNat ++ ";samples=".toList ++
    showNat config.samplesPerBlock.toNat ++ ";difficulty=".toList ++
    showNat config.difficultyZeroBits.toNat

def WireConfig.default : WireConfig :=
  ⟨"chesscoin-local".toList, Wire.chainFingerprint ChainConfig.default, Wire.protocolVersion⟩

inductive PeerMessage
  | hello (nodeId : Str) (height : UInt64) (head : Digest) (listenAddr : SocketAddr)
  | getBlocks (fromHeight : UInt64) (limit : Usize)
  | getBlocksByLocator (locator : List Digest) (limit : Usize)
  | getInventory (locator : List Digest) (limit : Usize)
  | inventory (hashes : List Digest)
  | getHeaders (locator : List Digest) (limit : Usize)
  | headers (headers : List BlockHeader)
  | getPeers (limit : Usize)
  | peers (peers : List SocketAddr)
  | block (block : Block)
  | endBlocks
  deriving DecidableEq

/-! ### Fields -/

def replace (c : Char) (text : Str) (s : Str) : Str :=
  s.flatMap fun d => if d = c then text else [d]

def escape (s : Str) : Str := replace '|' "%7C".toList (replace '%' "%25".toList s)

/-- The value of two hex digits, where the first may be a plus sign. -/
def hexPair (high low : UInt8) : Option UInt8 :=
  match (if high = 43 then .ok 0 else Digest.decodeHexDigit high), Digest.decodeHexDigit low with
  | .ok high, .ok low => some (high * 16 + low)
  | _, _ => none

/-- Each byte becomes the character of its number, so only ASCII comes back as it was. -/
def unescapeBytes : Bytes → Except String Str
  | [] => .ok []
  | byte :: rest =>
    if byte ≠ 37 then (unescapeBytes rest).map (Char.ofNat byte.toNat :: ·)
    else match rest with
      | high :: low :: rest =>
        match hexPair high low with
        | none => .error "invalid escape"
        | some value => (unescapeBytes rest).map (Char.ofNat value.toNat :: ·)
      | _ => .error "truncated escape"

def unescape (s : Str) : Except String Str := unescapeBytes (utf8 s)

def parseField {α : Type} (fromStr : Str → Option α) (name : String) (input : Str) :
    Except String α :=
  match fromStr input with
  | some a => .ok a
  | none => .error ("invalid " ++ name ++ ": '" ++ String.ofList input ++ "'")

def parseU16 (s : Str) : Option UInt16 := (parseUnsigned (2 ^ 16) s).map UInt16.ofNat
def parseU64 (s : Str) : Option UInt64 := (parseUnsigned (2 ^ 64) s).map UInt64.ofNat
def parseI64 (s : Str) : Option Int64 := (parseSigned (2 ^ 63) s).map Int64.ofInt

def showU64 (x : UInt64) : Str := showNat x.toNat
def showI64 (x : Int64) : Str := showInt x.toInt

def join (sep : Char) (pieces : List Str) : Str := [sep].intercalate pieces

/-- The elements of a list, or the first error. -/
def collect {α : Type} (decode : Str → Except String α) : List Str → Except String (List α)
  | [] => .ok []
  | s :: rest => do
    let a ← decode s
    let as ← collect decode rest
    return a :: as

/-- A list whose empty text is the empty list. -/
def decodeList {α : Type} (sep : Char) (decode : Str → Except String α) (input : Str) :
    Except String (List α) :=
  if input = [] then .ok [] else collect decode (input.splitOn sep)

/-! ### Encoding -/

def encodeModel (m : ModelState) : Str := join '_' (m.weights.map showI64)

def encodeEntry (e : TraceEntry) : Str :=
  join ',' [e.previousCommitment.toHex, e.commitment.toHex, showU64 e.step.index,
    showU64 e.step.seed, showU64 e.step.batchId, showU64 e.step.weightIndex,
    showI64 e.step.gradient, showI64 e.step.learningRatePpm, encodeModel e.step.stateBefore,
    encodeModel e.step.stateAfter]

def encodeHeader (h : BlockHeader) : Str :=
  join ',' [showU64 h.height, h.previousBlock.toHex, encodeModel h.modelBefore,
    encodeModel h.modelAfter, h.traceRoot.toHex, showU64 h.trainingSeed,
    showU64 h.samplingEntropy, showU64 h.sampleCount, showU64 h.nonce]

/-- The fields of a block after the first, which names the message. -/
def blockFields (b : Block) : List Str :=
  [showU64 b.header.height, b.header.previousBlock.toHex, encodeModel b.header.modelBefore,
    encodeModel b.header.modelAfter, b.header.traceRoot.toHex, showU64 b.header.trainingSeed,
    showU64 b.header.samplingEntropy, showU64 b.header.sampleCount, showU64 b.header.nonce,
    encodeModel b.trace.initialModel, encodeModel b.trace.candidateModel, b.trace.root.toHex,
    join ';' (b.trace.entries.map encodeEntry)]

def encodeBlock (b : Block) : Str := join '|' ("BLOCK".toList :: blockFields b)

def encodeBlockMessage (b : Block) : Str := encodeBlock b

variable (addr : AddrText)

def encodeDigests (ds : List Digest) : Str := join ',' (ds.map Digest.toHex)

def encodeMessage : PeerMessage → Str
  | .hello nodeId height head listenAddr =>
    join '|' ["HELLO".toList, escape nodeId, showU64 height, head.toHex, addr.display listenAddr]
  | .getBlocks fromHeight limit =>
    join '|' ["GET_BLOCKS".toList, showU64 fromHeight, showU64 limit]
  | .getBlocksByLocator locator limit =>
    join '|' ["GET_BLOCKS_LOCATOR".toList, encodeDigests locator, showU64 limit]
  | .getInventory locator limit =>
    join '|' ["GET_INVENTORY".toList, encodeDigests locator, showU64 limit]
  | .inventory hashes => join '|' ["INVENTORY".toList, encodeDigests hashes]
  | .getHeaders locator limit =>
    join '|' ["GET_HEADERS".toList, encodeDigests locator, showU64 limit]
  | .headers headers => join '|' ["HEADERS".toList, join ';' (headers.map encodeHeader)]
  | .getPeers limit => join '|' ["GET_PEERS".toList, showU64 limit]
  | .peers peers => join '|' ["PEERS".toList, join ',' (peers.map addr.display)]
  | .block b => encodeBlock b
  | .endBlocks => "END_BLOCKS".toList

def encodeNetworkMessage (config : WireConfig) (message : PeerMessage) : Str :=
  join '|' [wireMagic, showNat config.protocolVersion.toNat, escape config.networkId,
    escape config.chainFingerprint, encodeMessage addr message]

/-! ### Decoding -/

def decodeWeights : (fields : List Str) →
    Except String { weights : List Int64 // weights.length = fields.length }
  | [] => .ok ⟨[], rfl⟩
  | field :: rest => do
    let weight ← parseField parseI64 "model weight" field
    let ⟨weights, h⟩ ← decodeWeights rest
    return ⟨weight :: weights, by simp [h]⟩

def decodeModel (input : Str) : Except String ModelState :=
  let fields := input.splitOn '_'
  if h : fields.length = modelWidth then do
    let ⟨weights, hw⟩ ← decodeWeights fields
    return ⟨weights, hw.trans h⟩
  else .error ("model requires " ++ toString modelWidth ++ " weights")

def decodeEntry (input : Str) : Except String TraceEntry :=
  match input.splitOn ',' with
  | [previousCommitment, commitment, index, seed, batchId, weightIndex, gradient, rate,
      stateBefore, stateAfter] => do
    let previousCommitment ← Digest.fromHex previousCommitment
    let commitment ← Digest.fromHex commitment
    let index ← parseField parseU64 "step.index" index
    let seed ← parseField parseU64 "step.seed" seed
    let batchId ← parseField parseU64 "step.batch_id" batchId
    let weightIndex ← parseField parseU64 "step.weight_index" weightIndex
    let gradient ← parseField parseI64 "step.gradient" gradient
    let learningRatePpm ← parseField parseI64 "step.learning_rate_ppm" rate
    let stateBefore ← decodeModel stateBefore
    let stateAfter ← decodeModel stateAfter
    return ⟨previousCommitment,
      { index, seed, batchId, weightIndex, gradient, learningRatePpm, stateBefore, stateAfter },
      commitment⟩
  | _ => .error "trace entry requires 10 fields"

def decodeHeader (input : Str) : Except String BlockHeader :=
  match input.splitOn ',' with
  | [height, previousBlock, modelBefore, modelAfter, traceRoot, trainingSeed, samplingEntropy,
      sampleCount, nonce] => do
    let height ← parseField parseU64 "height" height
    let previousBlock ← Digest.fromHex previousBlock
    let modelBefore ← decodeModel modelBefore
    let modelAfter ← decodeModel modelAfter
    let traceRoot ← Digest.fromHex traceRoot
    let trainingSeed ← parseField parseU64 "training_seed" trainingSeed
    let samplingEntropy ← parseField parseU64 "sampling_entropy" samplingEntropy
    let sampleCount ← parseField parseU64 "sample_count" sampleCount
    let nonce ← parseField parseU64 "nonce" nonce
    return { height, previousBlock, modelBefore, modelAfter, traceRoot, trainingSeed,
             samplingEntropy, sampleCount, nonce }
  | _ => .error "header requires 9 fields"

/-- The trace entries are read before the other fields of the trace. -/
def decodeBlock (fields : List Str) : Except String PeerMessage :=
  match fields with
  | [_, height, previousBlock, modelBefore, modelAfter, traceRoot, trainingSeed,
      samplingEntropy, sampleCount, nonce, initialModel, candidateModel, root, entries] => do
    let height ← parseField parseU64 "height" height
    let previousBlock ← Digest.fromHex previousBlock
    let modelBefore ← decodeModel modelBefore
    let modelAfter ← decodeModel modelAfter
    let traceRoot ← Digest.fromHex traceRoot
    let trainingSeed ← parseField parseU64 "training_seed" trainingSeed
    let samplingEntropy ← parseField parseU64 "sampling_entropy" samplingEntropy
    let sampleCount ← parseField parseU64 "sample_count" sampleCount
    let nonce ← parseField parseU64 "nonce" nonce
    let entries ← decodeList ';' decodeEntry entries
    let initialModel ← decodeModel initialModel
    let candidateModel ← decodeModel candidateModel
    let root ← Digest.fromHex root
    return .block
      { header := { height, previousBlock, modelBefore, modelAfter, traceRoot, trainingSeed,
                    samplingEntropy, sampleCount, nonce }
        trace := { initialModel, candidateModel, entries, root } }
  | _ => .error "BLOCK requires 13 fields"

def decodeHello (fields : List Str) : Except String PeerMessage :=
  match fields with
  | [_, nodeId, height, head, listenAddr] => do
    let nodeId ← unescape nodeId
    let height ← parseField parseU64 "height" height
    let head ← Digest.fromHex head
    let listenAddr ← parseField addr.fromStr "listen_addr" listenAddr
    return .hello nodeId height head listenAddr
  | _ => .error "HELLO requires 4 fields"

def decodeGetBlocks (fields : List Str) : Except String PeerMessage :=
  match fields with
  | [_, fromHeight, limit] => do
    let fromHeight ← parseField parseU64 "from_height" fromHeight
    let limit ← parseField parseU64 "limit" limit
    return .getBlocks fromHeight limit
  | _ => .error "GET_BLOCKS requires 2 fields"

def decodeDigestList (input : Str) : Except String (List Digest) :=
  decodeList ',' Digest.fromHex input

/-- The requests that carry a locator and a limit. -/
def decodeLocatorRequest (make : List Digest → Usize → PeerMessage) (name : String)
    (fields : List Str) : Except String PeerMessage :=
  match fields with
  | [_, locator, limit] => do
    let locator ← decodeDigestList locator
    let limit ← parseField parseU64 "limit" limit
    return make locator limit
  | _ => .error (name ++ " requires 2 fields")

def decodeGetBlocksLocator : List Str → Except String PeerMessage :=
  decodeLocatorRequest .getBlocksByLocator "GET_BLOCKS_LOCATOR"

def decodeGetInventory : List Str → Except String PeerMessage :=
  decodeLocatorRequest .getInventory "GET_INVENTORY"

def decodeGetHeaders : List Str → Except String PeerMessage :=
  decodeLocatorRequest .getHeaders "GET_HEADERS"

def decodeInventory (fields : List Str) : Except String PeerMessage :=
  match fields with
  | [_, hashes] => (decodeDigestList hashes).map .inventory
  | _ => .error "INVENTORY requires 1 field"

def decodeHeaders (fields : List Str) : Except String PeerMessage :=
  match fields with
  | [_, headers] => (decodeList ';' decodeHeader headers).map .headers
  | _ => .error "HEADERS requires 1 field"

def decodeGetPeers (fields : List Str) : Except String PeerMessage :=
  match fields with
  | [_, limit] => (parseField parseU64 "limit" limit).map .getPeers
  | _ => .error "GET_PEERS requires 1 field"

def decodePeers (fields : List Str) : Except String PeerMessage :=
  match fields with
  | [_, peers] => (decodeList ',' (parseField addr.fromStr "peer address") peers).map .peers
  | _ => .error "PEERS requires 1 field"

def decodeEndBlocks (fields : List Str) : Except String PeerMessage :=
  match fields with
  | [_] => .ok .endBlocks
  | _ => .error "END_BLOCKS requires no fields"

/-- The decoder a first field names. -/
def messageDecoder (kind : Str) : List Str → Except String PeerMessage :=
  if kind = "HELLO".toList then decodeHello addr
  else if kind = "GET_BLOCKS".toList then decodeGetBlocks
  else if kind = "GET_BLOCKS_LOCATOR".toList then decodeGetBlocksLocator
  else if kind = "GET_INVENTORY".toList then decodeGetInventory
  else if kind = "INVENTORY".toList then decodeInventory
  else if kind = "GET_HEADERS".toList then decodeGetHeaders
  else if kind = "HEADERS".toList then decodeHeaders
  else if kind = "GET_PEERS".toList then decodeGetPeers
  else if kind = "PEERS".toList then decodePeers addr
  else if kind = "BLOCK".toList then decodeBlock
  else if kind = "END_BLOCKS".toList then decodeEndBlocks
  else fun _ => .error ("unknown message type '" ++ String.ofList kind ++ "'")

/-- The line without the line endings after it. -/
def trimEnd (line : Str) : Str := line.rdropWhile fun c => c == '\r' || c == '\n'

def decodeMessage (line : Str) : Except String PeerMessage :=
  let fields := (trimEnd line).splitOn '|'
  match fields.head? with
  | some kind => messageDecoder addr kind fields
  | none => .error "empty message"

def decodeBlockMessage (line : Str) : Except String Block := do
  match ← decodeMessage addr line with
  | .block b => return b
  | _ => .error "expected BLOCK message"

def decodeNetworkMessage (line : Str) (config : WireConfig) : Except String PeerMessage :=
  match splitn 5 '|' (trimEnd line) with
  | [magic, version, networkId, fingerprint, message] => do
    if magic ≠ wireMagic then .error "invalid network magic"
    let version ← parseField parseU16 "protocol_version" version
    if version ≠ config.protocolVersion then .error "incompatible protocol version"
    let networkId ← unescape networkId
    if networkId ≠ config.networkId then .error "incompatible network id"
    let fingerprint ← unescape fingerprint
    if fingerprint ≠ config.chainFingerprint then .error "incompatible chain fingerprint"
    decodeMessage addr message
  | _ => .error "network message requires envelope"

end Chesscoin.Wire

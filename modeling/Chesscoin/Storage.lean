import Chesscoin.BlockCodec
import Chesscoin.ForkChoice

/-!
The block log: a text file with a header line for the chain configuration and one record
line for each block, appended to while the node runs and replayed when it starts.

A record carries the checksum of its payload. Lines that are neither a header nor a record
are read as plain block messages, the format of older logs. A last line without its newline
that cannot be decoded is taken for an interrupted append and ignored; any other line that
cannot be decoded, and any block the fork choice refuses, makes loading fail.
-/

namespace Chesscoin.Storage

open Chesscoin.Lib.ByteString Chesscoin.Lib.Text Chesscoin.Domain Chesscoin.Simulator
  Chesscoin.Validation Chesscoin.ForkChoice Chesscoin.Wire

def storageRecordVersion : Str := "CCBLK1".toList
def storageHeaderVersion : Str := "CCCFG1".toList

variable (hasher : HashPort) (sampler : SamplingPort) (addr : AddrText)

def storageRecordChecksum (payload : Str) : Digest := hasher.digest (utf8 payload)

/-! ### Lines -/

def encodeStorageHeader (config : ChainConfig) : Str :=
  let fingerprint := chainFingerprint config
  join '|' [storageHeaderVersion, (storageRecordChecksum hasher fingerprint).toHex, fingerprint]

def decodeStorageHeader (line : Str) : Except String Str := do
  let fields := splitn 3 '|' line
  if fields.head? ≠ some storageHeaderVersion then .error "storage header version mismatch"
  match fields with
  | [_, checksum, fingerprint] =>
    let expected ← Digest.fromHex checksum
    let actual := storageRecordChecksum hasher fingerprint
    if expected ≠ actual then .error "storage header checksum mismatch"
    return fingerprint
  | _ => .error "storage header requires version, checksum, and fingerprint"

def encodeStorageRecord (block : Block) : Str :=
  let payload := encodeBlockMessage block
  join '|' [storageRecordVersion, (storageRecordChecksum hasher payload).toHex, payload]

def decodeStorageRecord (line : Str) : Except String Block :=
  let fields := splitn 3 '|' line
  if fields.head? ≠ some storageRecordVersion then decodeBlockMessage addr line
  else match fields with
    | [_, checksum, payload] => do
      let expected ← Digest.fromHex checksum
      let actual := storageRecordChecksum hasher payload
      if expected ≠ actual then .error "storage record checksum mismatch"
      decodeBlockMessage addr payload
    | _ => .error "storage record requires version, checksum, and payload"

inductive StorageLine
  | header (fingerprint : Str)
  | block (block : Block)
  deriving DecidableEq

def decodeStorageLine (line : Str) : Except String StorageLine :=
  if storageHeaderVersion.isPrefixOf line then
    (decodeStorageHeader hasher line).map .header
  else (decodeStorageRecord hasher addr line).map .block

/-! ### Loading -/

/-- Why a log cannot be loaded. -/
inductive LoadError
  | unreadable
  | invalidLine (lineNumber : ℕ) (error : String)
  | fingerprintMismatch (stored configured : Str)
  | rejectedBlock (lineNumber : ℕ) (error : ForkChoiceError)
  | brokenChain (error : BlockValidationError)
  deriving DecidableEq

/-- What loading has met so far. -/
structure Loaded where
  forkChoice : ForkChoiceState
  seenHeader : Bool
  seenBlock : Bool

def Loaded.init (config : ChainConfig) : Loaded := ⟨ForkChoiceState.new config, false, false⟩

def loadHeader (config : ChainConfig) (lineNumber : ℕ) (fingerprint : Str) (s : Loaded) :
    Except LoadError Loaded :=
  if s.seenHeader then .error (.invalidLine lineNumber "duplicate storage header")
  else if s.seenBlock then
    .error (.invalidLine lineNumber "storage header must precede blocks")
  else if fingerprint ≠ chainFingerprint config then
    .error (.fingerprintMismatch fingerprint (chainFingerprint config))
  else .ok { s with seenHeader := true }

def loadBlock (lineNumber : ℕ) (block : Block) (s : Loaded) : Except LoadError Loaded :=
  match s.forkChoice.insertBlock hasher sampler block with
  | (.error e, _) => .error (.rejectedBlock lineNumber e)
  | (.ok _, forkChoice) => .ok { s with forkChoice, seenBlock := true }

def loadLine (config : ChainConfig) (lineNumber : ℕ) (line : StorageLine) (s : Loaded) :
    Except LoadError Loaded :=
  match line with
  | .header fingerprint => loadHeader config lineNumber fingerprint s
  | .block block => loadBlock hasher sampler lineNumber block s

/-- The lines from `lineNumber` on. When the tail of the text is not complete, a last line
that cannot be decoded is left out. -/
def loadLines (config : ChainConfig) (hasCompleteTail : Bool) :
    ℕ → List Str → Loaded → Except LoadError Loaded
  | _, [], s => .ok s
  | lineNumber, line :: rest, s =>
    if isBlank line then loadLines config hasCompleteTail (lineNumber + 1) rest s
    else match decodeStorageLine hasher addr line with
      | .ok decoded =>
        match loadLine hasher sampler config lineNumber decoded s with
        | .error e => .error e
        | .ok s => loadLines config hasCompleteTail (lineNumber + 1) rest s
      | .error e =>
        if !hasCompleteTail && rest.isEmpty then .ok s
        else .error (.invalidLine lineNumber e)

def loadContent (config : ChainConfig) (content : Str) : Except LoadError Loaded :=
  loadLines hasher sampler addr config (decide (HasCompleteTail content)) 1 (lines content)
    (Loaded.init config)

/-- A missing file is an empty log. -/
def loadChains (file : Option Bytes) (config : ChainConfig) :
    Except LoadError (ChainState × ForkChoiceState) :=
  match file with
  | none => .ok (ChainState.new config, ForkChoiceState.new config)
  | some bytes =>
    match fromUtf8 bytes with
    | none => .error .unreadable
    | some content =>
      match loadContent hasher sampler addr config content with
      | .error e => .error e
      | .ok s =>
        match chainFromBlocks hasher sampler config s.forkChoice.bestChain with
        | .error e => .error (.brokenChain e)
        | .ok chain => .ok (chain, s.forkChoice)

/-! ### Appending -/

/-- How the calls one append makes to the file system turn out: the directory or the file
cannot be opened, the size cannot be read, or a write fails after `cut` bytes have reached
the file (`none`: it does not fail). -/
structure AppendIo where
  openFails : Bool
  metadataFails : Bool
  cut : Option ℕ
  deriving DecidableEq

def AppendIo.success : AppendIo := ⟨false, false, none⟩

/-- The bytes an append writes, after the header when the log is new. -/
def appendBytes (config : ChainConfig) (block : Block) (shouldWriteHeader : Bool) : Bytes :=
  utf8 ((if shouldWriteHeader then encodeStorageHeader hasher config ++ ['\n'] else []) ++
    (encodeStorageRecord hasher block ++ ['\n']))

/-- Whether the append succeeds, and the file after it. -/
def appendBlock (config : ChainConfig) (block : Block) (io : AppendIo) (file : Option Bytes) :
    Bool × Option Bytes :=
  let shouldWriteHeader := !io.metadataFails && (file.getD []).isEmpty
  if io.openFails then (false, file)
  else
    let bytes := appendBytes hasher config block shouldWriteHeader
    match io.cut with
    | none => (true, some (file.getD [] ++ bytes))
    | some n => (false, some (file.getD [] ++ bytes.take n))

/-- The file of a node with the outcomes of the appends to come. -/
structure Disk where
  file : Option Bytes
  io : List AppendIo
  deriving DecidableEq

def Disk.nextIo (d : Disk) : AppendIo := d.io.headD AppendIo.success

def Disk.append (d : Disk) (config : ChainConfig) (block : Block) : Bool × Disk :=
  let r := appendBlock hasher config block d.nextIo d.file
  (r.1, ⟨r.2, d.io.tail⟩)

end Chesscoin.Storage

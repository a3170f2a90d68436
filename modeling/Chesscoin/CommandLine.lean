import Chesscoin.Config
import Chesscoin.MessageCodec

/-!
The command line of a node and the configuration file it may name.

The settings of a file are put into the argument list where the file is named, before the name,
and then the list is read from left to right, each setting replacing what was set before. So a
file replaces what stands before it on the command line and is replaced by what stands after.
-/

namespace Chesscoin.CommandLine

open Chesscoin.Lib.Text Chesscoin.Lib.Fallible Chesscoin.Domain Chesscoin.Validation Chesscoin.Wire
  Chesscoin.Config Chesscoin.MessageCodec

/-! ### Requests -/

structure NodeRequest where
  config : NodeConfig
  mineOnce : Bool
  miningEnabled : Bool
  miningInterval : ℕ
  networkMaxMessageBytes : ℕ
  networkMaxPeers : ℕ
  networkMaxInboundConnections : ℕ
  chainFingerprint : Str
  networkId : Str
  protocolVersion : UInt16
  runMs : UInt64
  trainingSeed : UInt64
  samplingEntropy : UInt64

/-- Why no request is returned: an error, or the usage has been asked for. -/
inductive Stop
  | error (text : String)
  | usage
  deriving DecidableEq

variable (addr : AddrText)

def parseSocketAddr (input : Str) : Except Stop SocketAddr :=
  match addr.fromStr input with
  | some a => .ok a
  | none => .error (.error ("invalid socket address '" ++ String.ofList input ++ "'"))

/-- The request before the first argument. -/
def initialRequest : Except Stop NodeRequest := do
  let networkDefaults := NetworkConfig.default
  let listenAddr ← parseSocketAddr addr "127.0.0.1:9333".toList
  return {
    config :=
      { nodeId := "chesscoin-node".toList
        listenAddr
        advertiseAddr := none
        peers := []
        chain := ChainConfig.default
        miner := none
        storage := none
        network := networkDefaults
        sync := SyncConfig.default }
    mineOnce := false
    miningEnabled := false
    miningInterval := 5 * second
    networkMaxMessageBytes := networkDefaults.maxMessageBytes
    networkMaxPeers := networkDefaults.maxPeers
    networkMaxInboundConnections := networkDefaults.maxInboundConnections
    chainFingerprint := networkDefaults.wire.chainFingerprint
    networkId := networkDefaults.wire.networkId
    protocolVersion := networkDefaults.wire.protocolVersion
    runMs := 0
    trainingSeed := 42
    samplingEntropy := 2026 }

/-! ### Options with one value -/

inductive ValueKind
  | text
  | addr
  | u16
  | u32
  | u64
  /-- A `usize` that the configuration holds as a number. -/
  | count
  | millis

/-- The values of a kind, as a request holds them. -/
def ValueKind.Value : ValueKind → Type
  | .text => Str
  | .addr => SocketAddr
  | .u16 => UInt16
  | .u32 => UInt32
  | .u64 => UInt64
  | .count => ℕ
  | .millis => ℕ

instance (k : ValueKind) : DecidableEq k.Value := by
  cases k <;> simp only [ValueKind.Value] <;> infer_instance

def ValueKind.fromStr : (k : ValueKind) → Str → Option k.Value
  | .text, s => some s
  | .addr, s => addr.fromStr s
  | .u16, s => parseU16 s
  | .u32, s => (parseUnsigned (2 ^ 32) s).map UInt32.ofNat
  | .u64, s => parseU64 s
  | .count, s => parseUnsigned (2 ^ 64) s
  | .millis, s => (parseUnsigned (2 ^ 64) s).map (· * (second / 1000))

inductive NodeOption
  | nodeId
  | listen
  | advertise
  | mineIntervalMs
  | runMs
  | dataDir
  | maxMessageBytes
  | maxPeers
  | maxInboundConnections
  | networkId
  | protocolVersion
  | connectTimeoutMs
  | readTimeoutMs
  | writeTimeoutMs
  | syncIntervalMs
  | syncMaxBlocks
  | syncLocatorHashes
  | steps
  | samples
  | difficulty
  | seed
  | entropy
  deriving DecidableEq

namespace NodeOption

def all : List NodeOption :=
  [nodeId, listen, advertise, mineIntervalMs, runMs, dataDir, maxMessageBytes, maxPeers,
    maxInboundConnections, networkId, protocolVersion, connectTimeoutMs, readTimeoutMs,
    writeTimeoutMs, syncIntervalMs, syncMaxBlocks, syncLocatorHashes, steps, samples, difficulty,
    seed, entropy]

lemma mem_all (o : NodeOption) : o ∈ all := by
  cases o <;> decide

def flag : NodeOption → String
  | nodeId => "--node-id"
  | listen => "--listen"
  | advertise => "--advertise"
  | mineIntervalMs => "--mine-interval-ms"
  | runMs => "--run-ms"
  | dataDir => "--data-dir"
  | maxMessageBytes => "--max-message-bytes"
  | maxPeers => "--max-peers"
  | maxInboundConnections => "--max-inbound-connections"
  | networkId => "--network-id"
  | protocolVersion => "--protocol-version"
  | connectTimeoutMs => "--connect-timeout-ms"
  | readTimeoutMs => "--read-timeout-ms"
  | writeTimeoutMs => "--write-timeout-ms"
  | syncIntervalMs => "--sync-interval-ms"
  | syncMaxBlocks => "--sync-max-blocks"
  | syncLocatorHashes => "--sync-locator-hashes"
  | steps => "--steps"
  | samples => "--samples"
  | difficulty => "--difficulty"
  | seed => "--seed"
  | entropy => "--entropy"

def kind : NodeOption → ValueKind
  | nodeId | dataDir | networkId => .text
  | listen | advertise => .addr
  | protocolVersion => .u16
  | difficulty => .u32
  | runMs | steps | samples | seed | entropy => .u64
  | maxMessageBytes | maxPeers | maxInboundConnections | syncMaxBlocks | syncLocatorHashes =>
    .count
  | mineIntervalMs | connectTimeoutMs | readTimeoutMs | writeTimeoutMs | syncIntervalMs =>
    .millis

/-- The request with an option set. A value that the request and its configuration both keep is
written to both. -/
def put : (o : NodeOption) → o.kind.Value → NodeRequest → NodeRequest
  | nodeId, v, r => { r with config.nodeId := v }
  | listen, v, r => { r with config.listenAddr := v }
  | advertise, v, r => { r with config.advertiseAddr := some v }
  | mineIntervalMs, v, r =>
    { r with
      miningInterval := v
      config.miner := if r.miningEnabled then some ⟨v⟩ else r.config.miner }
  | runMs, v, r => { r with runMs := v }
  | dataDir, v, r => { r with config.storage := some v }
  | maxMessageBytes, v, r =>
    { r with networkMaxMessageBytes := v, config.network.maxMessageBytes := v }
  | maxPeers, v, r => { r with networkMaxPeers := v, config.network.maxPeers := v }
  | maxInboundConnections, v, r =>
    { r with networkMaxInboundConnections := v, config.network.maxInboundConnections := v }
  | networkId, v, r => { r with networkId := v, config.network.wire.networkId := v }
  | protocolVersion, v, r =>
    { r with protocolVersion := v, config.network.wire.protocolVersion := v }
  | connectTimeoutMs, v, r => { r with config.network.connectTimeout := v }
  | readTimeoutMs, v, r => { r with config.network.readTimeout := v }
  | writeTimeoutMs, v, r => { r with config.network.writeTimeout := v }
  | syncIntervalMs, v, r => { r with config.sync.interval := v }
  | syncMaxBlocks, v, r => { r with config.sync.maxBlocksPerResponse := v }
  | syncLocatorHashes, v, r => { r with config.sync.maxLocatorHashes := v }
  | steps, v, r => { r with config.chain.stepsPerBlock := v }
  | samples, v, r => { r with config.chain.samplesPerBlock := v }
  | difficulty, v, r => { r with config.chain.difficultyZeroBits := v }
  | seed, v, r => { r with trainingSeed := v }
  | entropy, v, r => { r with samplingEntropy := v }

/-- The value an option has in a request, if it has one. -/
def shown : (o : NodeOption) → NodeRequest → Option o.kind.Value
  | nodeId, r => some r.config.nodeId
  | listen, r => some r.config.listenAddr
  | advertise, r => r.config.advertiseAddr
  | mineIntervalMs, r => some r.miningInterval
  | runMs, r => some r.runMs
  | dataDir, r => r.config.storage
  | maxMessageBytes, r => some r.networkMaxMessageBytes
  | maxPeers, r => some r.networkMaxPeers
  | maxInboundConnections, r => some r.networkMaxInboundConnections
  | networkId, r => some r.networkId
  | protocolVersion, r => some r.protocolVersion
  | connectTimeoutMs, r => some r.config.network.connectTimeout
  | readTimeoutMs, r => some r.config.network.readTimeout
  | writeTimeoutMs, r => some r.config.network.writeTimeout
  | syncIntervalMs, r => some r.config.sync.interval
  | syncMaxBlocks, r => some r.config.sync.maxBlocksPerResponse
  | syncLocatorHashes, r => some r.config.sync.maxLocatorHashes
  | steps, r => some r.config.chain.stepsPerBlock
  | samples, r => some r.config.chain.samplesPerBlock
  | difficulty, r => some r.config.chain.difficultyZeroBits
  | seed, r => some r.trainingSeed
  | entropy, r => some r.samplingEntropy

@[simp] lemma shown_put (o : NodeOption) (v : o.kind.Value) (r : NodeRequest) :
    o.shown (o.put v r) = some v := by
  cases o <;> rfl

lemma shown_put_of_ne {o o' : NodeOption} (h : o' ≠ o) (v : o'.kind.Value) (r : NodeRequest) :
    o.shown (o'.put v r) = o.shown r := by
  cases o <;> cases o' <;> first | rfl | exact absurd rfl h

end NodeOption

/-! ### The argument loop -/

inductive Flag
  | config
  | option (o : NodeOption)
  | peer
  | mine
  | mineOnce
  | noSync
  | help
  deriving DecidableEq

/-- The spellings of a flag. -/
def Flag.texts : Flag → List String
  | config => ["--config"]
  | option o => [o.flag]
  | peer => ["--peer"]
  | mine => ["--mine"]
  | mineOnce => ["--mine-once"]
  | noSync => ["--no-sync"]
  | help => ["-h", "--help"]

def Flag.all : List Flag :=
  [.config, .peer, .mine, .mineOnce, .noSync, .help] ++ NodeOption.all.map .option

def flagOf (arg : Str) : Option Flag := Flag.all.find? fun f => f.texts.any (·.toList = arg)

/-- The text of an argument as the value of a flag. -/
def parseValue (flag : String) (k : ValueKind) (text : Str) : Except Stop k.Value :=
  match k.fromStr addr text with
  | some v => .ok v
  | none => .error (.error (flag ++ " received an invalid value"))

def requiresValue (flag : String) : Stop := .error (flag ++ " requires a value")

def addPeer (a : SocketAddr) (r : NodeRequest) : NodeRequest :=
  { r with config.peers := r.config.peers ++ [a] }

def enableMining (r : NodeRequest) : NodeRequest :=
  { r with
    miningEnabled := true
    config.miner := some ⟨r.miningInterval⟩ }

def parseArgs (r : NodeRequest) : List Str → Except Stop NodeRequest
  | [] => .ok r
  | arg :: rest =>
    match flagOf arg with
    | none => .error (.error ("unknown option '" ++ String.ofList arg ++ "'"))
    | some .config =>
      match rest with
      | [] => .ok r
      | _ :: rest => parseArgs r rest
    | some (.option o) =>
      match rest with
      | [] => .error (requiresValue o.flag)
      | text :: rest => do
        let v ← parseValue addr o.flag o.kind text
        parseArgs (o.put v r) rest
    | some .peer =>
      match rest with
      | [] => .error (requiresValue "--peer")
      | text :: rest => do
        let a ← parseValue addr "--peer" .addr text
        parseArgs (addPeer a r) rest
    | some .mine => parseArgs (enableMining r) rest
    | some .mineOnce => parseArgs { r with mineOnce := true } rest
    | some .noSync => parseArgs { r with config.sync.enabled := false } rest
    | some .help => .error .usage

/-! ### Configuration files -/

def trim (s : Str) : Str := (s.dropWhile isWhiteSpace).rdropWhile isWhiteSpace

/-- What stands before the first separator and what stands after it. -/
def splitOnce (sep : Char) (s : Str) : Option (Str × Str) :=
  if sep ∈ s then some (s.takeWhile (· ≠ sep), (s.dropWhile (· ≠ sep)).tail) else none

def invalidLine (lineNumber : ℕ) (text : String) : Stop :=
  .error ("invalid config line " ++ toString (lineNumber + 1) ++ ": " ++ text)

/-- The arguments that a line of a file stands for. -/
def configLineArgs (lineNumber : ℕ) (rawLine : Str) : Except Stop (List Str) :=
  let line := trim rawLine
  if line = [] ∨ line.head? = some '#' then .ok []
  else match splitOnce '=' line with
    | none => .error (invalidLine lineNumber "expected key=value")
    | some (key, value) =>
      let key := trim key
      let value := trim value
      if key = [] ∨ value = [] then .error (invalidLine lineNumber "empty key or value")
      else
        let flag := key.map fun c => if c = '_' then '-' else c
        if flag = "mine".toList ∨ flag = "mine-once".toList then
          if value ∈ ["true".toList, "yes".toList, "1".toList] then .ok ["--".toList ++ flag]
          else if value ∈ ["false".toList, "no".toList, "0".toList] then .ok []
          else .error (invalidLine lineNumber
            ("boolean flag " ++ String.ofList key ++ " must be true or false"))
        else .ok ["--".toList ++ flag, value]

def configArgs : ℕ → List Str → Except Stop (List Str)
  | _, [] => .ok []
  | lineNumber, rawLine :: rest => do
    let first ← configLineArgs lineNumber rawLine
    let others ← configArgs (lineNumber + 1) rest
    return first ++ others

variable (files : Str → Except String Str)

def readConfigArgs (path : Str) : Except Stop (List Str) :=
  match files path with
  | .error error =>
    .error (.error ("failed to read config " ++ String.ofList path ++ ": " ++ error))
  | .ok content => configArgs 0 (lines content)

/-- The arguments with those of every file put in before the name of the file. -/
def expandConfigArgs : List Str → Except Stop (List Str)
  | [] => .ok []
  | arg :: rest =>
    if arg = "--config".toList then
      match rest with
      | [] => .error (requiresValue "--config")
      | path :: rest => do
        let config ← readConfigArgs files path
        let expanded ← expandConfigArgs rest
        return config ++ arg :: path :: expanded
    else do
      let expanded ← expandConfigArgs rest
      return arg :: expanded

/-- The fingerprint of the chain configuration goes where the two copies of it are kept. -/
def setFingerprint (r : NodeRequest) : NodeRequest :=
  let chainFingerprint := Wire.chainFingerprint r.config.chain
  { r with
    chainFingerprint
    config.network.wire.chainFingerprint := chainFingerprint }

def parseNodeRequest (args : List Str) : Except Stop NodeRequest := do
  let args ← expandConfigArgs files args
  let initial ← initialRequest addr
  let request ← parseArgs addr initial args
  match validateNodeConfig addr request.config with
  | .error text => .error (.error text)
  | .ok () => return setFingerprint request

/-! ### Settings -/

/-- What stands in an argument list, flags with their values. -/
inductive Setting
  | value (o : NodeOption) (text : Str)
  | peer (text : Str)
  | config (path : Str)
  | mine
  | mineOnce
  | noSync

namespace Setting

def args : Setting → List Str
  | value o text => [o.flag.toList, text]
  | peer text => ["--peer".toList, text]
  | config path => ["--config".toList, path]
  | mine => ["--mine".toList]
  | mineOnce => ["--mine-once".toList]
  | noSync => ["--no-sync".toList]

def applyTo (r : NodeRequest) : Setting → Except Stop NodeRequest
  | value o text => do
    let v ← parseValue addr o.flag o.kind text
    return o.put v r
  | peer text => do
    let a ← parseValue addr "--peer" .addr text
    return addPeer a r
  | config _ => .ok r
  | mine => .ok (enableMining r)
  | mineOnce => .ok { r with mineOnce := true }
  | noSync => .ok { r with config.sync.enabled := false }

end Setting

def argsOf (settings : List Setting) : List Str := settings.flatMap Setting.args

lemma argsOf_cons (s : Setting) (settings : List Setting) :
    argsOf (s :: settings) = s.args ++ argsOf settings := rfl

lemma argsOf_append (settings settings' : List Setting) :
    argsOf (settings ++ settings') = argsOf settings ++ argsOf settings' :=
  List.flatMap_append

variable {addr}

lemma flagOf_flag (o : NodeOption) : flagOf o.flag.toList = some (.option o) := by
  have hall : ∀ o ∈ NodeOption.all, flagOf o.flag.toList = some (.option o) := by decide +kernel
  exact hall o o.mem_all

/-- A flag with one spelling is only read from that. -/
lemma eq_of_flagOf {arg : Str} {f : Flag} {text : String} (h : flagOf arg = some f)
    (htexts : f.texts = [text]) : arg = text.toList := by
  have hany := List.find?_some (p := fun f : Flag => f.texts.any (·.toList = arg)) h
  simp only [htexts, List.any_cons, List.any_nil, Bool.or_false, decide_eq_true_eq] at hany
  exact hany.symm

/-- The loop takes one setting off the list and applies it. -/
lemma parseArgs_args (s : Setting) (r : NodeRequest) (rest : List Str) :
    parseArgs addr r (s.args ++ rest) =
      s.applyTo addr r >>= fun m => parseArgs addr m rest := by
  cases s with
  | value o text =>
    rw [Setting.args, Setting.applyTo, List.cons_append, List.cons_append, List.nil_append,
      parseArgs, flagOf_flag]
    simp
  | peer text =>
    have hflag : flagOf "--peer".toList = some .peer := by decide +kernel
    rw [Setting.args, Setting.applyTo, List.cons_append, List.cons_append, List.nil_append,
      parseArgs, hflag]
    simp
  | config path => rfl
  | mine => rfl
  | mineOnce => rfl
  | noSync => rfl

/-- **The loop applies the settings of a list in their order.** -/
theorem parseArgs_argsOf (settings : List Setting) (r : NodeRequest) :
    parseArgs addr r (argsOf settings) = run (Setting.applyTo addr) r settings := by
  induction settings generalizing r with
  | nil => rfl
  | cons s settings ih =>
    rw [argsOf_cons, parseArgs_args, run_cons]
    exact congrArg _ (funext ih)

lemma settings_cons {s : Setting} {r m r' : NodeRequest} {rest last : List Str}
    (hs : s.applyTo addr r = .ok m)
    (h : ∃ settings, run (Setting.applyTo addr) m settings = .ok r' ∧
      rest = argsOf settings ++ last) :
    ∃ settings, run (Setting.applyTo addr) r settings = .ok r' ∧
      s.args ++ rest = argsOf settings ++ last := by
  obtain ⟨settings, hrun, rfl⟩ := h
  refine ⟨s :: settings, ?_, ?_⟩
  · rw [run_cons, hs]
    exact hrun
  · rw [argsOf_cons, List.append_assoc]

/-- **What the loop accepts is a list of settings.** Only a last `--config` may lack its
value. -/
theorem settings_of_parseArgs {r r' : NodeRequest} {args : List Str}
    (h : parseArgs addr r args = .ok r') :
    ∃ last, (last = [] ∨ last = ["--config".toList]) ∧
      ∃ settings, run (Setting.applyTo addr) r settings = .ok r' ∧
        args = argsOf settings ++ last := by
  fun_induction parseArgs addr r args with
  | case1 r => exact ⟨[], .inl rfl, [], h, rfl⟩
  | case2 r arg rest hflag => cases h
  | case3 r arg hflag =>
    obtain rfl := eq_of_flagOf hflag rfl
    exact ⟨_, .inr rfl, [], h, rfl⟩
  | case4 r arg hflag path rest ih =>
    obtain rfl := eq_of_flagOf hflag rfl
    obtain ⟨last, hlast, hrest⟩ := ih h
    exact ⟨last, hlast, settings_cons (s := .config path) rfl hrest⟩
  | case5 r arg o hflag => cases h
  | case6 r arg o hflag text rest ih =>
    obtain rfl := eq_of_flagOf hflag rfl
    obtain ⟨v, hv, h⟩ := bind_ok h
    obtain ⟨last, hlast, hrest⟩ := ih v h
    refine ⟨last, hlast, settings_cons (s := .value o text) ?_ hrest⟩
    rw [Setting.applyTo, hv]
    rfl
  | case7 r arg hflag => cases h
  | case8 r arg hflag text rest ih =>
    obtain rfl := eq_of_flagOf hflag rfl
    obtain ⟨a, ha, h⟩ := bind_ok h
    obtain ⟨last, hlast, hrest⟩ := ih a h
    refine ⟨last, hlast, settings_cons (s := .peer text) ?_ hrest⟩
    rw [Setting.applyTo, ha]
    rfl
  | case9 r arg rest hflag ih =>
    obtain rfl := eq_of_flagOf hflag rfl
    obtain ⟨last, hlast, hrest⟩ := ih h
    exact ⟨last, hlast, settings_cons (s := .mine) rfl hrest⟩
  | case10 r arg rest hflag ih =>
    obtain rfl := eq_of_flagOf hflag rfl
    obtain ⟨last, hlast, hrest⟩ := ih h
    exact ⟨last, hlast, settings_cons (s := .mineOnce) rfl hrest⟩
  | case11 r arg rest hflag ih =>
    obtain rfl := eq_of_flagOf hflag rfl
    obtain ⟨last, hlast, hrest⟩ := ih h
    exact ⟨last, hlast, settings_cons (s := .noSync) rfl hrest⟩
  | case12 r arg rest hflag => cases h

/-! ### What settings do to a request -/

lemma parseValue_ok {flag : String} {k : ValueKind} {text : Str} {v : k.Value}
    (h : parseValue addr flag k text = .ok v) : k.fromStr addr text = some v := by
  unfold parseValue at h
  split at h
  · next w hw => rw [hw, Except.ok.inj h]
  · cases h

/-- The text a setting gives for an option. -/
def NodeOption.given (o : NodeOption) : Setting → Option Str
  | .value o' text => if o' = o then some text else none
  | _ => none

lemma given_eq_some {o : NodeOption} {s : Setting} {text : Str} (h : o.given s = some text) :
    s = .value o text := by
  unfold NodeOption.given at h
  split at h
  · next o' text' =>
    split at h
    · next heq => rw [heq, Option.some.inj h]
    · cases h
  · cases h

/-- A setting replaces the value of the option it gives and no other. -/
lemma shown_applyTo (o : NodeOption) {r r' : NodeRequest} {s : Setting}
    (h : s.applyTo addr r = .ok r') :
    o.shown r' = ((o.given s).map (o.kind.fromStr addr)).getD (o.shown r) := by
  cases s with
  | value o' text =>
    obtain ⟨v, hv, h⟩ := bind_ok h
    obtain rfl := Except.ok.inj h
    by_cases heq : o' = o
    · subst heq
      rw [NodeOption.given, if_pos rfl, NodeOption.shown_put, Option.map_some, Option.getD_some,
        parseValue_ok hv]
    · rw [NodeOption.given, if_neg heq, NodeOption.shown_put_of_ne heq]
      rfl
  | peer text =>
    obtain ⟨a, ha, h⟩ := bind_ok h
    obtain rfl := Except.ok.inj h
    cases o <;> rfl
  | config path | mine | mineOnce | noSync =>
    obtain rfl := Except.ok.inj h
    cases o <;> rfl

lemma shown_run (o : NodeOption) {r r' : NodeRequest} {settings : List Setting}
    (h : run (Setting.applyTo addr) r settings = .ok r') :
    o.shown r' =
      ((lastGiven o.given settings).map (o.kind.fromStr addr)).getD (o.shown r) := by
  have hstep : ∀ (m : NodeRequest) (s : Setting) (m' : NodeRequest), s.applyTo addr m = .ok m' →
      o.shown m' = ((o.given s).map (o.kind.fromStr addr)).getD (o.shown m) :=
    fun m s m' => shown_applyTo o
  rw [read_of_run hstep h, lastGiven_map]

/-- A text that a run of settings has taken reads as a value. -/
lemma reads_of_run {o : NodeOption} {r r' : NodeRequest} {settings : List Setting} {text : Str}
    (h : run (Setting.applyTo addr) r settings = .ok r')
    (hgiven : ∃ s ∈ settings, o.given s = some text) : ∃ v, o.kind.fromStr addr text = some v := by
  obtain ⟨s, hmem, hs⟩ := hgiven
  obtain rfl := given_eq_some hs
  obtain ⟨m, m', hstep⟩ := step_of_mem_run h hmem
  obtain ⟨v, hv, -⟩ := bind_ok hstep
  exact ⟨v, parseValue_ok hv⟩

/-- The values that a request and its configuration both keep are the same. -/
structure NodeRequest.Consistent (r : NodeRequest) : Prop where
  miner : r.config.miner = if r.miningEnabled then some ⟨r.miningInterval⟩ else none
  maxMessageBytes : r.config.network.maxMessageBytes = r.networkMaxMessageBytes
  maxPeers : r.config.network.maxPeers = r.networkMaxPeers
  maxInboundConnections :
    r.config.network.maxInboundConnections = r.networkMaxInboundConnections
  chainFingerprint : r.config.network.wire.chainFingerprint = r.chainFingerprint
  networkId : r.config.network.wire.networkId = r.networkId
  protocolVersion : r.config.network.wire.protocolVersion = r.protocolVersion

lemma consistent_initial {r : NodeRequest} (h : initialRequest addr = .ok r) : r.Consistent := by
  obtain ⟨a, -, h⟩ := bind_ok h
  obtain rfl := Except.ok.inj h
  exact ⟨rfl, rfl, rfl, rfl, rfl, rfl, rfl⟩

lemma consistent_put (o : NodeOption) (v : o.kind.Value) {r : NodeRequest} (hr : r.Consistent) :
    (o.put v r).Consistent := by
  obtain ⟨hminer, hbytes, hpeers, hinbound, hchain, hnetwork, hversion⟩ := hr
  cases o with
  | mineIntervalMs =>
    refine ⟨?_, hbytes, hpeers, hinbound, hchain, hnetwork, hversion⟩
    show (if r.miningEnabled then some ⟨v⟩ else r.config.miner) =
      if r.miningEnabled then some ⟨v⟩ else none
    split
    · rfl
    · next hoff => rw [hminer, if_neg hoff]
  | maxMessageBytes => exact ⟨hminer, rfl, hpeers, hinbound, hchain, hnetwork, hversion⟩
  | maxPeers => exact ⟨hminer, hbytes, rfl, hinbound, hchain, hnetwork, hversion⟩
  | maxInboundConnections => exact ⟨hminer, hbytes, hpeers, rfl, hchain, hnetwork, hversion⟩
  | networkId => exact ⟨hminer, hbytes, hpeers, hinbound, hchain, rfl, hversion⟩
  | protocolVersion => exact ⟨hminer, hbytes, hpeers, hinbound, hchain, hnetwork, rfl⟩
  | _ => exact ⟨hminer, hbytes, hpeers, hinbound, hchain, hnetwork, hversion⟩

lemma consistent_applyTo {r r' : NodeRequest} {s : Setting} (h : s.applyTo addr r = .ok r')
    (hr : r.Consistent) : r'.Consistent := by
  cases s with
  | value o text =>
    obtain ⟨v, -, h⟩ := bind_ok h
    exact Except.ok.inj h ▸ consistent_put o v hr
  | peer text =>
    obtain ⟨a, -, h⟩ := bind_ok h
    obtain rfl := Except.ok.inj h
    obtain ⟨hminer, hbytes, hpeers, hinbound, hchain, hnetwork, hversion⟩ := hr
    exact ⟨hminer, hbytes, hpeers, hinbound, hchain, hnetwork, hversion⟩
  | mine =>
    obtain rfl := Except.ok.inj h
    obtain ⟨-, hbytes, hpeers, hinbound, hchain, hnetwork, hversion⟩ := hr
    exact ⟨rfl, hbytes, hpeers, hinbound, hchain, hnetwork, hversion⟩
  | config path | mineOnce | noSync =>
    obtain rfl := Except.ok.inj h
    obtain ⟨hminer, hbytes, hpeers, hinbound, hchain, hnetwork, hversion⟩ := hr
    exact ⟨hminer, hbytes, hpeers, hinbound, hchain, hnetwork, hversion⟩

lemma consistent_run {r r' : NodeRequest} {settings : List Setting}
    (h : run (Setting.applyTo addr) r settings = .ok r') (hr : r.Consistent) : r'.Consistent :=
  run_preserves (fun _ _ _ => consistent_applyTo) h hr

/-! ### The whole request -/

lemma expandConfigArgs_of_notMem {files : Str → Except String Str} {args : List Str}
    (h : "--config".toList ∉ args) : expandConfigArgs files args = .ok args := by
  induction args with
  | nil => rfl
  | cons arg rest ih =>
    rw [List.mem_cons, not_or] at h
    obtain ⟨harg, hrest⟩ := h
    rw [expandConfigArgs.eq_def]
    simp only [Ne.symm harg, if_false]
    rw [ih hrest]
    rfl

/-- The settings of a file go in before the name of the file. -/
lemma expandConfigArgs_config {files : Str → Except String Str} {before after config : List Str}
    {path : Str} (hbefore : "--config".toList ∉ before) (hafter : "--config".toList ∉ after)
    (hread : readConfigArgs files path = .ok config) :
    expandConfigArgs files (before ++ "--config".toList :: path :: after) =
      .ok (before ++ (config ++ "--config".toList :: path :: after)) := by
  induction before with
  | nil =>
    rw [List.nil_append, expandConfigArgs.eq_def]
    simp only [if_true]
    rw [hread, expandConfigArgs_of_notMem hafter]
    rfl
  | cons arg rest ih =>
    rw [List.mem_cons, not_or] at hbefore
    obtain ⟨harg, hrest⟩ := hbefore
    rw [List.cons_append, expandConfigArgs.eq_def]
    simp only [Ne.symm harg, if_false]
    rw [ih hrest]
    rfl

lemma parseNodeRequest_ok {files : Str → Except String Str} {args : List Str}
    {request : NodeRequest} (h : parseNodeRequest addr files args = .ok request) :
    ∃ expanded initial r, expandConfigArgs files args = .ok expanded ∧
      initialRequest addr = .ok initial ∧ parseArgs addr initial expanded = .ok r ∧
      request = setFingerprint r := by
  obtain ⟨expanded, hexpanded, h⟩ := bind_ok h
  obtain ⟨initial, hinitial, h⟩ := bind_ok h
  obtain ⟨r, hr, h⟩ := bind_ok h
  split at h
  · cases h
  · exact ⟨expanded, initial, r, hexpanded, hinitial, hr, (Except.ok.inj h).symm⟩

/-- A request is made by the settings before the file, then those of the file, then those
after it. -/
lemma run_of_parseNodeRequest {files : Str → Except String Str}
    {before config after : List Setting} {path : Str} {request : NodeRequest}
    (hbefore : "--config".toList ∉ argsOf before) (hafter : "--config".toList ∉ argsOf after)
    (hread : readConfigArgs files path = .ok (argsOf config))
    (hparse : parseNodeRequest addr files
      (argsOf before ++ argsOf [.config path] ++ argsOf after) = .ok request) :
    ∃ initial r, initialRequest addr = .ok initial ∧
      run (Setting.applyTo addr) initial (before ++ (config ++ .config path :: after)) = .ok r ∧
      request = setFingerprint r := by
  obtain ⟨expanded, initial, r, hexpanded, hinitial, hr, hrequest⟩ := parseNodeRequest_ok hparse
  refine ⟨initial, r, hinitial, ?_, hrequest⟩
  have hspliced := expandConfigArgs_config hbefore hafter hread
  rw [List.append_assoc] at hexpanded
  have heq : expanded = argsOf (before ++ (config ++ .config path :: after)) := by
    rw [argsOf_append, argsOf_append]
    exact Except.ok.inj (hexpanded.symm.trans hspliced)
  rw [← parseArgs_argsOf, ← heq]
  exact hr

lemma shown_setFingerprint (o : NodeOption) (r : NodeRequest) :
    o.shown (setFingerprint r) = o.shown r := by
  cases o <;> rfl

lemma consistent_setFingerprint {r : NodeRequest} (h : r.Consistent) :
    (setFingerprint r).Consistent := by
  obtain ⟨hminer, hbytes, hpeers, hinbound, -, hnetwork, hversion⟩ := h
  exact ⟨hminer, hbytes, hpeers, hinbound, rfl, hnetwork, hversion⟩

/-- **The file against the command line.** An option given on the command line has the last
value given there exactly when it is also given after the file, or the file gives it no other
value. -/
theorem command_line_overrides (addr : AddrText) (files : Str → Except String Str)
    (before config after : List Setting) (path : Str) (request : NodeRequest)
    (hbefore : "--config".toList ∉ argsOf before) (hafter : "--config".toList ∉ argsOf after)
    (hread : readConfigArgs files path = .ok (argsOf config))
    (hparse : parseNodeRequest addr files
      (argsOf before ++ argsOf [.config path] ++ argsOf after) = .ok request)
    (o : NodeOption) (text : Str) (hgiven : lastGiven o.given (before ++ after) = some text) :
    request.Consistent ∧ ∃ v, o.kind.fromStr addr text = some v ∧
      (o.shown request = some v ↔
        (lastGiven o.given after).isSome ∨
          ∀ t ∈ lastGiven o.given config, o.kind.fromStr addr t = some v) := by
  obtain ⟨initial, r, hinitial, hrun, rfl⟩ := run_of_parseNodeRequest hbefore hafter hread hparse
  refine ⟨consistent_setFingerprint (consistent_run hrun (consistent_initial hinitial)), ?_⟩
  have hshown := shown_run o hrun
  obtain ⟨v, hv⟩ : ∃ v, o.kind.fromStr addr text = some v := by
    obtain ⟨s, hmem, hs⟩ := exists_of_lastGiven hgiven
    refine reads_of_run hrun ⟨s, ?_, hs⟩
    rcases List.mem_append.mp hmem with hmem | hmem <;> simp [hmem]
  refine ⟨v, hv, ?_⟩
  rw [shown_setFingerprint, hshown, lastGiven_append, lastGiven_append, lastGiven_cons]
  rw [lastGiven_append] at hgiven
  cases hlast : lastGiven o.given after with
  | some t =>
    rw [hlast, Option.some_or, Option.some.injEq] at hgiven
    simp [hgiven, hv]
  | none =>
    rw [hlast, Option.none_or] at hgiven
    cases hfile : lastGiven o.given config with
    | none => simp [NodeOption.given, hgiven, hv]
    | some t => simp [NodeOption.given]

/-! A file with one setting. -/

def nodeConf (path : Str) : Except String Str :=
  if path = "node.conf".toList then .ok "difficulty=0\n".toList
  else .error "No such file or directory (os error 2)"

lemma nodeConf_reads :
    readConfigArgs nodeConf "node.conf".toList =
      .ok (argsOf [.value .difficulty "0".toList]) := by decide +kernel

theorem command_line_overrides_after_file :
    ∃ request, parseNodeRequest localText nodeConf
        (["--config", "node.conf", "--difficulty", "4"].map String.toList) = .ok request ∧
      request.config.chain.difficultyZeroBits = 4 := by
  obtain ⟨request, hparse, -⟩ := ok_of_toOption_map (b := ())
    (show (parseNodeRequest localText nodeConf
      (["--config", "node.conf", "--difficulty", "4"].map String.toList)).toOption.map
        (fun _ => ()) = some () by decide +kernel)
  refine ⟨request, hparse, ?_⟩
  obtain ⟨-, v, hv, hiff⟩ := command_line_overrides localText nodeConf []
    [.value .difficulty "0".toList] [.value .difficulty "4".toList] "node.conf".toList request
    (by decide) (by decide) nodeConf_reads hparse .difficulty "4".toList (by decide)
  have hshown := hiff.mpr (.inl (by decide))
  have hfour : NodeOption.difficulty.kind.fromStr localText "4".toList = some (4 : UInt32) := rfl
  rw [← Option.some.inj (hfour.symm.trans hv)] at hshown
  exact Option.some.inj hshown

/-- A file that is named last replaces what is given before it. -/
theorem file_overrides_command_line :
    readConfigArgs nodeConf "node.conf".toList =
        .ok (argsOf [.value .difficulty "0".toList]) ∧
      lastGiven NodeOption.difficulty.given [.value .difficulty "4".toList] =
        some "4".toList ∧
      ValueKind.u32.fromStr localText "4".toList = some (4 : UInt32) ∧
      ∃ request, parseNodeRequest localText nodeConf
          (argsOf [.value .difficulty "4".toList] ++ argsOf [.config "node.conf".toList]) =
            .ok request ∧
        request.config.chain.difficultyZeroBits = 0 := by
  refine ⟨nodeConf_reads, by decide, rfl, ?_⟩
  exact ok_of_toOption_map (f := fun r : NodeRequest => r.config.chain.difficultyZeroBits)
    (by decide +kernel)

end Chesscoin.CommandLine

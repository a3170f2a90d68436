import Chesscoin.LogLines
import Chesscoin.MessageCodec
import Chesscoin.Runtime

/-!
The envelope keeps networks apart.

A message is read in the network it was written in and in no other: the version, the network
id and the fingerprint are compared before the message is looked at, and a fingerprint says
the three numbers of a configuration. An id that is not ASCII is not read back as it was
written, and keeps its own nodes apart as well.
-/

namespace Chesscoin.Envelope

open Chesscoin.Lib.ByteString Chesscoin.Lib.Text Chesscoin.Domain Chesscoin.Validation
  Chesscoin.Wire Chesscoin.Config Chesscoin.Runtime Chesscoin.BlockCodec Chesscoin.MessageCodec

variable {addr : AddrText}

/-! ### Fingerprints -/

lemma showNat_inj {m n : ℕ} (h : showNat m = showNat n) : m = n := by
  have hread := parseDigits_showNat m
  rw [h, parseDigits_showNat] at hread
  exact (Option.some.inj hread).symm

lemma semicolon_notMem_showNat (n : ℕ) : ';' ∉ showNat n := fun h =>
  absurd (showNat_subset n h) (by decide)

/-- What all fingerprints start with. -/
def rulesText : Str :=
  "rules=".toList ++ chainRulesVersion ++ ";model_width=".toList ++ showNat modelWidth ++
    ";learning_rate_ppm=".toList ++ showInt learningRatePpm.toInt ++ ";steps=".toList

lemma chainFingerprint_eq (config : ChainConfig) :
    chainFingerprint config = rulesText ++ (showNat config.stepsPerBlock.toNat ++ ';' ::
      ("samples=".toList ++ (showNat config.samplesPerBlock.toNat ++ ';' ::
        ("difficulty=".toList ++ showNat config.difficultyZeroBits.toNat)))) := by
  have hsamples : ";samples=".toList = ';' :: "samples=".toList := by decide
  have hdifficulty : ";difficulty=".toList = ';' :: "difficulty=".toList := by decide
  unfold chainFingerprint rulesText
  rw [hsamples, hdifficulty]
  generalize showNat modelWidth = width
  generalize showInt learningRatePpm.toInt = rate
  simp only [List.append_assoc, List.cons_append]

/-- **A fingerprint says the configuration.** -/
theorem chainFingerprint_inj {c c' : ChainConfig} (h : chainFingerprint c = chainFingerprint c') :
    c = c' := by
  rw [chainFingerprint_eq, chainFingerprint_eq] at h
  obtain ⟨hsteps, h⟩ := field_inj (semicolon_notMem_showNat _) (semicolon_notMem_showNat _)
    (List.append_cancel_left h)
  obtain ⟨hsamples, h⟩ := field_inj (semicolon_notMem_showNat _) (semicolon_notMem_showNat _)
    (List.append_cancel_left h)
  have hdifficulty := showNat_inj (List.append_cancel_left h)
  cases c
  cases c'
  rw [ChainConfig.mk.injEq]
  exact ⟨UInt64.toNat_inj.mp (showNat_inj hsteps), UInt64.toNat_inj.mp (showNat_inj hsamples),
    UInt32.toNat_inj.mp hdifficulty⟩

lemma chainFingerprint_ascii (config : ChainConfig) : Ascii (chainFingerprint config) := by
  have h : LogLines.fingerprintAlphabet.all (fun c => c.toNat < 128) = true := by decide
  intro c hc
  simpa using List.all_eq_true.mp h c (LogLines.chainFingerprint_subset config hc)

/-! ### Reading an envelope -/

lemma bar_notMem_showNat (n : ℕ) : '|' ∉ showNat n := fun h =>
  absurd (showNat_subset n h) (by decide)

lemma encodeNetworkMessage_eq (config : WireConfig) (message : PeerMessage) :
    encodeNetworkMessage addr config message =
      wireMagic ++ '|' :: (showNat config.protocolVersion.toNat ++ '|' ::
        (escape config.networkId ++ '|' :: (escape config.chainFingerprint ++ '|' ::
          encodeMessage addr message))) := by
  simp [encodeNetworkMessage, join, List.intercalate]

/-- An envelope is cut into its four fields and the message. -/
lemma splitn_envelope (config : WireConfig) (text : Str) :
    splitn 5 '|' (wireMagic ++ '|' :: (showNat config.protocolVersion.toNat ++ '|' ::
        (escape config.networkId ++ '|' :: (escape config.chainFingerprint ++ '|' :: text)))) =
      [wireMagic, showNat config.protocolVersion.toNat, escape config.networkId,
        escape config.chainFingerprint, text] := by
  rw [splitn_append (by decide), splitn_append (bar_notMem_showNat _),
    splitn_append (bar_notMem_escape _), splitn_append (bar_notMem_escape _)]
  rfl

lemma parseU16_showNat (name : String) (version : UInt16) :
    parseField parseU16 name (showNat version.toNat) = .ok version := by
  rw [parseField, parseU16, parseUnsigned_showNat version.toNat_lt, Option.map_some,
    UInt16.ofNat_toNat]

/-- **What is read of an envelope**: the version, the id and the fingerprint are compared in
this order, the texts as they are read, and then the message is read. -/
theorem decodeNetworkMessage_encode (config config' : WireConfig) (message : PeerMessage)
    (haddrs : ∀ a ∈ addrsOf message, AddrReads addr a) :
    decodeNetworkMessage addr (encodeNetworkMessage addr config message) config' =
      if config.protocolVersion ≠ config'.protocolVersion then
        .error "incompatible protocol version"
      else if byteChars config.networkId ≠ config'.networkId then .error "incompatible network id"
      else if byteChars config.chainFingerprint ≠ config'.chainFingerprint then
        .error "incompatible chain fingerprint"
      else .ok (asRead message) := by
  have hends : Ends (encodeNetworkMessage addr config message) := by
    rw [encodeNetworkMessage_eq]
    exact ((((encodeMessage_ends message haddrs).field _).field _).field _).field _
  rw [decodeNetworkMessage, hends.trimEnd, encodeNetworkMessage_eq, splitn_envelope]
  simp only [ne_eq, not_true_eq_false, if_false, parseU16_showNat, unescape_escape,
    decodeMessage_encode message haddrs, bind, Except.bind]

/-! ### One network -/

/-- The envelope a node with this configuration writes and reads. -/
def wireOf (config : NodeConfig) : WireConfig :=
  { config.network.wire with chainFingerprint := chainFingerprint config.chain }

lemma initialState_wire (config : NodeConfig) (boundAddr : SocketAddr)
    (storage : Option Storage.Disk) (chains : ForkChoice.ChainState × ForkChoice.ForkChoiceState) :
    (initialState config boundAddr storage chains).network.wire = wireOf config := rfl

/-- **A network understands itself exactly when its id is ASCII**, and a HELLO when the node id
is ASCII too. -/
theorem network_round_trip_iff (addr : AddrText) (config : NodeConfig) (message : PeerMessage)
    (haddrs : ∀ a ∈ addrsOf message, AddrReads addr a) :
    decodeNetworkMessage addr (encodeNetworkMessage addr (wireOf config) message)
        (wireOf config) = .ok message ↔
      Ascii config.network.wire.networkId ∧ Ascii (nodeIdOf message) := by
  have hprint : byteChars (wireOf config).chainFingerprint = (wireOf config).chainFingerprint :=
    byteChars_ascii (chainFingerprint_ascii config.chain)
  have hname : (wireOf config).networkId = config.network.wire.networkId := rfl
  rw [decodeNetworkMessage_encode _ _ message haddrs, if_neg (not_not.mpr rfl), hprint, hname,
    ← byteChars_eq_iff, ← asRead_eq_iff]
  by_cases hid : byteChars config.network.wire.networkId = config.network.wire.networkId
  · rw [if_neg (not_not.mpr hid), if_neg (not_not.mpr rfl), Except.ok.injEq]
    simp only [hid, true_and]
  · rw [if_pos hid]
    refine iff_of_false (by simp) fun h => hid h.1

/-- The settings of a node on the local host, but for the id of its network. -/
def namedConfig (networkId : Str) : NodeConfig :=
  { NodeConfig.localhostEphemeral "node".toList with
    network :=
      { NetworkConfig.default with wire := { WireConfig.default with networkId } } }

theorem network_round_trip_local :
    decodeNetworkMessage localText
        (encodeNetworkMessage localText (wireOf (namedConfig "a|b%".toList)) (.peers [localAddr]))
        (wireOf (namedConfig "a|b%".toList)) = .ok (.peers [localAddr]) := by
  have hascii : ("a|b%".toList).all (fun c => c.toNat < 128) = true := by decide
  refine (network_round_trip_iff localText (namedConfig "a|b%".toList) (.peers [localAddr])
    ?_).mpr ⟨?_, fun c hc => nomatch hc⟩
  · intro a ha
    rw [List.mem_singleton.mp ha]
    exact localAddr_reads
  · intro c hc
    simpa using List.all_eq_true.mp hascii c hc

/-- The id `é` is accepted, and no message passes under it. -/
theorem network_round_trip_accent :
    validateNodeConfig localText (namedConfig "é".toList) = .ok () ∧
      decodeNetworkMessage localText
          (encodeNetworkMessage localText (wireOf (namedConfig "é".toList)) .endBlocks)
          (wireOf (namedConfig "é".toList)) = .error "incompatible network id" := by
  refine ⟨by decide +kernel, ?_⟩
  rw [decodeNetworkMessage_encode _ _ .endBlocks (by simp [addrsOf]), if_neg (not_not.mpr rfl),
    if_pos]
  decide +kernel

/-! ### Several networks -/

/-- **Networks are isolated.** A message passes between two nodes when their versions, their
network ids and the three numbers of their configurations are the same, and is refused when
any of these differs. -/
theorem networks_isolated (addr : AddrText) (c c' : ChainConfig) (version version' : UInt16)
    (networkId networkId' : Str) (message : PeerMessage) (hid : Ascii networkId)
    (htext : Ascii (nodeIdOf message)) (haddrs : ∀ a ∈ addrsOf message, AddrReads addr a) :
    (version = version' ∧ networkId = networkId' ∧ c.stepsPerBlock = c'.stepsPerBlock ∧
        c.samplesPerBlock = c'.samplesPerBlock ∧ c.difficultyZeroBits = c'.difficultyZeroBits →
      decodeNetworkMessage addr
        (encodeNetworkMessage addr ⟨networkId, chainFingerprint c, version⟩ message)
        ⟨networkId', chainFingerprint c', version'⟩ = .ok message) ∧
    (version ≠ version' ∨ networkId ≠ networkId' ∨ c.stepsPerBlock ≠ c'.stepsPerBlock ∨
        c.samplesPerBlock ≠ c'.samplesPerBlock ∨ c.difficultyZeroBits ≠ c'.difficultyZeroBits →
      ∃ e, decodeNetworkMessage addr
        (encodeNetworkMessage addr ⟨networkId, chainFingerprint c, version⟩ message)
        ⟨networkId', chainFingerprint c', version'⟩ = .error e) := by
  rw [decodeNetworkMessage_encode _ _ message haddrs, (asRead_eq_iff message).mpr htext]
  simp only [byteChars_ascii hid, byteChars_ascii (chainFingerprint_ascii c)]
  constructor
  · rintro ⟨rfl, rfl, hsteps, hsamples, hdifficulty⟩
    have hconfig : c = c' := by
      cases c
      cases c'
      simp only at hsteps hsamples hdifficulty
      rw [hsteps, hsamples, hdifficulty]
    rw [if_neg (not_not.mpr rfl), if_neg (not_not.mpr rfl), if_neg (not_not.mpr (by rw [hconfig]))]
  · intro hdiffer
    by_cases hversion : version = version'
    · by_cases hname : networkId = networkId'
      · have hprint : chainFingerprint c ≠ chainFingerprint c' := by
          intro heq
          obtain rfl := chainFingerprint_inj heq
          simp [hversion, hname] at hdiffer
        exact ⟨_, by rw [if_neg (not_not.mpr hversion), if_neg (not_not.mpr hname), if_pos hprint]⟩
      · exact ⟨_, by rw [if_neg (not_not.mpr hversion), if_pos hname]⟩
    · exact ⟨_, by rw [if_pos hversion]⟩

/-- Neither separators nor escapes in an id make it pass for another. -/
theorem networks_isolated_escapes :
    ∃ e, decodeNetworkMessage localText
      (encodeNetworkMessage localText
        ⟨"a%7Cb".toList, chainFingerprint ChainConfig.default, protocolVersion⟩ .endBlocks)
      ⟨"a|b".toList, chainFingerprint ChainConfig.default, protocolVersion⟩ = .error e := by
  have hascii : ("a%7Cb".toList).all (fun c => c.toNat < 128) = true := by decide
  refine (networks_isolated localText ChainConfig.default ChainConfig.default protocolVersion
    protocolVersion "a%7Cb".toList "a|b".toList .endBlocks ?_ (fun c hc => nomatch hc)
    (by simp [addrsOf])).2 (.inr (.inl (by decide)))
  intro c hc
  simpa using List.all_eq_true.mp hascii c hc

end Chesscoin.Envelope

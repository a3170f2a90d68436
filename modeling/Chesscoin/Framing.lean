import Chesscoin.Exchange

/-!
Framing is exact.

A message is one line: nothing an encoder writes contains a newline but the free texts, and
these were asked not to. Reading is done byte by byte into a buffer that is given up with the
byte that is one too many, so lines written back to back are cut where they were joined, and a
line that is too long costs its reader one byte more than the limit.
-/

namespace Chesscoin.Framing

open Chesscoin.Lib.ByteString Chesscoin.Lib.Text Chesscoin.Domain Chesscoin.Validation
  Chesscoin.Wire Chesscoin.Config Chesscoin.Runtime Chesscoin.BlockCodec Chesscoin.MessageCodec
  Chesscoin.LogLines Chesscoin.Envelope Chesscoin.Serving Chesscoin.Exchange

variable {addr : AddrText} {maxMessageBytes : ℕ} {fails : Bool} {message : PeerMessage}
  {messages : List PeerMessage}

/-! ### The loop of a call -/

/-- A call after its loop: its buffer, what it has left in the stream, and the error it returns. -/
structure Call where
  buffer : Bytes
  rest : Bytes
  error : Option IncomingReadError

/-- The loop, byte by byte. -/
def readLoop (maxMessageBytes : ℕ) (fails : Bool) (buffer : Bytes) : Bytes → Call
  | [] => ⟨buffer, [], if fails then some .io else none⟩
  | byte :: rest =>
    if maxMessageBytes < (buffer ++ [byte]).length then ⟨buffer ++ [byte], rest, some .oversized⟩
    else if byte = 10 then ⟨buffer ++ [byte], rest, none⟩
    else readLoop maxMessageBytes fails (buffer ++ [byte]) rest

/-- The bytes a call returns are those its loop has put into the buffer. -/
lemma readBytes_eq_readLoop (maxMessageBytes : ℕ) (fails : Bool) (buffer bytes : Bytes) :
    (readBytes maxMessageBytes fails buffer.length bytes).map
        (fun r => (buffer ++ r.1, r.2)) =
      match readLoop maxMessageBytes fails buffer bytes with
      | ⟨line, rest, none⟩ => .ok (line, rest)
      | ⟨_, _, some e⟩ => .error e := by
  induction bytes generalizing buffer with
  | nil =>
    cases fails with
    | true => rfl
    | false => simp [readBytes, readLoop, Except.map]
  | cons byte rest ih =>
    have hlen : (buffer ++ [byte]).length = buffer.length + 1 := by simp
    rw [readBytes, readLoop, hlen]
    by_cases hlong : maxMessageBytes < buffer.length + 1
    · rw [if_pos hlong, if_pos hlong]
      rfl
    · by_cases hline : byte = 10
      · rw [if_neg hlong, if_neg hlong, if_pos hline, if_pos hline]
        rfl
      · rw [if_neg hlong, if_neg hlong, if_neg hline, if_neg hline, ← ih, hlen]
        cases readBytes maxMessageBytes fails (buffer.length + 1) rest with
        | error e => rfl
        | ok r => simp [Except.map]

/-- **A call returns what its loop has read.** -/
theorem readLimitedLineFrom_eq_readLoop (s : Stream) :
    readLimitedLineFrom maxMessageBytes s =
      match readLoop maxMessageBytes s.fails [] s.bytes with
      | ⟨_, _, some e⟩ => .error e
      | ⟨[], rest, none⟩ => .ok (none, { s with bytes := rest })
      | ⟨line, rest, none⟩ =>
        match fromUtf8 line with
        | none => .error .io
        | some line => .ok (some line, { s with bytes := rest }) := by
  have h := readBytes_eq_readLoop maxMessageBytes s.fails [] s.bytes
  rw [readLimitedLineFrom]
  rw [List.length_nil] at h
  rcases hloop : readLoop maxMessageBytes s.fails [] s.bytes with ⟨line, rest, _ | e⟩ <;>
    rcases hread : readBytes maxMessageBytes s.fails 0 s.bytes with e' | ⟨line', rest'⟩ <;>
      rw [hloop, hread] at h
  · cases h
  · obtain ⟨rfl, rfl⟩ := Prod.mk.inj (Except.ok.inj h)
    cases line' <;> rfl
  · cases h
    rfl
  · cases h

/-- No stream makes a call keep more than one byte above the limit. -/
lemma readLoop_buffer_le {buffer : Bytes} (hbuffer : buffer.length ≤ maxMessageBytes)
    (bytes : Bytes) :
    (readLoop maxMessageBytes fails buffer bytes).buffer.length ≤ maxMessageBytes + 1 := by
  induction bytes generalizing buffer with
  | nil => exact hbuffer.trans (Nat.le_succ _)
  | cons byte rest ih =>
    have hlen : (buffer ++ [byte]).length = buffer.length + 1 := by simp
    rw [readLoop]
    split
    · simp only [hlen]
      omega
    · next hfits =>
      split
      · exact (not_lt.mp hfits).trans (Nat.le_succ _)
      · exact ih (not_lt.mp hfits)

lemma readLoop_long {buffer bytes : Bytes} (h : (10 : UInt8) ∉ bytes)
    (hbuffer : buffer.length ≤ maxMessageBytes)
    (hlong : maxMessageBytes < buffer.length + bytes.length + 1) (rest : Bytes) :
    (readLoop maxMessageBytes fails buffer (bytes ++ 10 :: rest)).error = some .oversized := by
  induction bytes generalizing buffer with
  | nil =>
    rw [List.length_nil] at hlong
    rw [List.nil_append, readLoop, if_pos (by simpa using hlong)]
  | cons byte bytes ih =>
    rw [List.length_cons] at hlong
    have hlen : (buffer ++ [byte]).length = buffer.length + 1 := by simp
    rw [List.cons_append, readLoop]
    by_cases hfits : maxMessageBytes < (buffer ++ [byte]).length
    · rw [if_pos hfits]
    · have hline : byte ≠ 10 := fun hbyte => h (by simp [hbyte])
      rw [if_neg hfits, if_neg hline]
      exact ih (fun hmem => h (List.mem_cons_of_mem byte hmem)) (not_lt.mp hfits) (by omega)

/-! ### One line for a message -/

lemma newline_notMem_join {sep : Char} (hsep : sep ≠ '\n') {l : List Str}
    (h : ∀ s ∈ l, '\n' ∉ s) : '\n' ∉ join sep l := by
  intro hmem
  have hsubset : join sep l ⊆ sep :: l.flatten := join_subset (by simp) fun s hs c hc =>
    List.mem_cons_of_mem sep (List.mem_flatten_of_mem hs hc)
  rcases List.mem_cons.mp (hsubset hmem) with heq | hflat
  · exact hsep heq.symm
  · obtain ⟨s, hs, hc⟩ := List.mem_flatten.mp hflat
    exact h s hs hc

lemma newline_notMem_line {s : Str} (h : s ⊆ messageAlphabet) : '\n' ∉ s := fun hmem =>
  absurd (h hmem) (by decide)

lemma newline_notMem_escape {s : Str} (h : '\n' ∉ s) : '\n' ∉ escape s := by
  rw [escape_eq, List.mem_flatMap]
  rintro ⟨c, hc, hmem⟩
  unfold escapeChar at hmem
  split at hmem
  · exact absurd hmem (by decide)
  · split at hmem
    · exact absurd hmem (by decide)
    · rw [List.mem_singleton.mp hmem] at h
      exact h hc

/-- No encoder writes a newline. -/
lemma newline_notMem_encodeMessage (hid : '\n' ∉ nodeIdOf message)
    (haddrs : ∀ a ∈ addrsOf message, AddrReads addr a) :
    '\n' ∉ encodeMessage addr message := by
  have hnumber : ∀ limit : Usize, '\n' ∉ showU64 limit := fun limit =>
    newline_notMem_line (field_line (showU64_subset limit))
  have hdigests : ∀ ds, '\n' ∉ encodeDigests ds := fun ds =>
    newline_notMem_line (encodeDigests_line ds)
  have hjoin : ∀ kind : Str, '\n' ∉ kind → ∀ fields : List Str, (∀ s ∈ fields, '\n' ∉ s) →
      '\n' ∉ join '|' (kind :: fields) := fun kind hkind fields hfields =>
    newline_notMem_join (by decide) (List.forall_mem_cons.mpr ⟨hkind, hfields⟩)
  cases message with
  | hello nodeId height head a =>
    refine hjoin _ (by decide) _ ?_
    simp only [List.forall_mem_cons, List.not_mem_nil, false_imp_iff, implies_true, and_true]
    exact ⟨newline_notMem_escape hid, hnumber height,
      newline_notMem_line (field_line (toHex_field head)),
      newline_notMem_line (addr_line (haddrs a (by simp [addrsOf])))⟩
  | getBlocks fromHeight limit => exact hjoin _ (by decide) _ (by simp [hnumber])
  | getBlocksByLocator locator limit => exact hjoin _ (by decide) _ (by simp [hnumber, hdigests])
  | getInventory locator limit => exact hjoin _ (by decide) _ (by simp [hnumber, hdigests])
  | inventory hashes => exact hjoin _ (by decide) _ (by simp [hdigests])
  | getHeaders locator limit => exact hjoin _ (by decide) _ (by simp [hnumber, hdigests])
  | headers headers =>
    have hheaders := newline_notMem_line (encodeHeaders_line headers)
    exact hjoin _ (by decide) _ (by simpa using hheaders)
  | getPeers limit => exact hjoin _ (by decide) _ (by simp [hnumber])
  | peers peers =>
    have hpeers : '\n' ∉ join ',' (peers.map addr.display) :=
      newline_notMem_line (encodePeers_line haddrs)
    exact hjoin _ (by decide) _ (by simpa using hpeers)
  | block b =>
    intro hmem
    exact absurd (encodeBlock_subset b hmem) (by decide)
  | endBlocks => exact (by decide : '\n' ∉ "END_BLOCKS".toList)

/-- Neither does the envelope bring one in. -/
lemma newline_notMem_encodeNetworkMessage {wire : WireConfig} (hid : '\n' ∉ wire.networkId)
    (hprint : '\n' ∉ wire.chainFingerprint) (hmessage : '\n' ∉ encodeMessage addr message) :
    '\n' ∉ encodeNetworkMessage addr wire message := by
  refine newline_notMem_join (by decide) ?_
  simp only [List.forall_mem_cons, List.not_mem_nil, false_imp_iff, implies_true, and_true]
  refine ⟨by decide, fun hmem => ?_, newline_notMem_escape hid, newline_notMem_escape hprint,
    hmessage⟩
  exact absurd (showNat_subset _ hmem) (by decide)

lemma newline_notMem_chainFingerprint (config : ChainConfig) : '\n' ∉ chainFingerprint config :=
  fun hmem => absurd (chainFingerprint_subset config hmem) (by decide)

/-- The newline at the end of a line does not matter. -/
lemma trimEnd_line (line : Str) : trimEnd (line ++ ['\n']) = trimEnd line :=
  List.rdropWhile_concat_pos _ _ _ (by decide)

variable {config : ChainConfig} {source target : NetworkConfig}

/-- **What fits gets through** between two nodes of one network, when its texts are plain. -/
theorem delivered_of_plain (hwire : target.wire = source.wire)
    (hprint : source.wire.chainFingerprint = chainFingerprint config)
    (hid : Ascii source.wire.networkId ∧ '\n' ∉ source.wire.networkId)
    (htext : Ascii (nodeIdOf message) ∧ '\n' ∉ nodeIdOf message)
    (haddrs : ∀ a ∈ addrsOf message, AddrReads addr a)
    (hfits : (writePeerMessage addr source.wire message).length ≤ target.maxMessageBytes) :
    Delivered addr source target message := by
  have hread := decodeNetworkMessage_encode source.wire target.wire message haddrs
  rw [hwire, if_neg (not_not.mpr rfl), byteChars_ascii hid.1, if_neg (not_not.mpr rfl), hprint,
    byteChars_ascii (chainFingerprint_ascii config), if_neg (not_not.mpr rfl),
    (asRead_eq_iff message).mpr htext.1] at hread
  refine ⟨?_, hfits, ?_⟩
  · refine newline_notMem_encodeNetworkMessage hid.2 ?_
      (newline_notMem_encodeMessage htext.2 haddrs)
    rw [hprint]
    exact newline_notMem_chainFingerprint config
  · rw [decodeNetworkMessage, trimEnd_line, hwire]
    exact hread

/-! ### Line after line -/

/-- So many messages, each of them read and decoded, and what is left of the stream. -/
def receiveMessages (addr : AddrText) (wire : WireConfig) (maxMessageBytes : ℕ) :
    ℕ → Stream → Option (List PeerMessage × Stream)
  | 0, s => some ([], s)
  | count + 1, s =>
    match readLimitedLineFrom maxMessageBytes s with
    | .ok (some line, s) =>
      match decodeNetworkMessage addr line wire with
      | .ok message =>
        (receiveMessages addr wire maxMessageBytes count s).map fun r => (message :: r.1, r.2)
      | .error _ => none
    | _ => none

/-- No byte is lost between two lines, and none is read twice. -/
lemma receiveMessages_delivered (h : ∀ m ∈ messages, Delivered addr source target m)
    (rest : Bytes) (fails : Bool) :
    receiveMessages addr target.wire target.maxMessageBytes messages.length
        ⟨messages.flatMap (writePeerMessage addr source.wire) ++ rest, fails⟩ =
      some (messages, ⟨rest, fails⟩) := by
  induction messages with
  | nil => rfl
  | cons m messages ih =>
    have hm := h m (by simp)
    have hline := hm.readLine (messages.flatMap (writePeerMessage addr source.wire) ++ rest) fails
    have hrest := ih fun m hm => h m (by simp [hm])
    rw [List.length_cons, receiveMessages, List.flatMap_cons, List.append_assoc, hline]
    simp only [hm.read, hrest, Option.map_some]

/-- A line that is too long is given up. -/
lemma readLoop_oversized {wire : WireConfig} (h : '\n' ∉ encodeNetworkMessage addr wire message)
    (hlong : maxMessageBytes < (writePeerMessage addr wire message).length) (rest : Bytes)
    (fails : Bool) :
    (readLoop maxMessageBytes fails [] (writePeerMessage addr wire message ++ rest)).error =
      some .oversized := by
  rw [writePeerMessage, utf8_line, List.length_append, List.length_singleton] at hlong
  rw [writePeerMessage, utf8_line, List.append_assoc]
  exact readLoop_long (newline_notMem_utf8 h) (Nat.zero_le _) (by simpa using hlong) rest

/-- The wire of a network. -/
def networkWire (config : ChainConfig) (networkId : Str) (version : UInt16) : WireConfig :=
  ⟨networkId, chainFingerprint config, version⟩

/-- **Line framing is exact.** Messages written back to back are received as they are, all of
them and then the end of the stream, as long as no line is longer than the limit. At the first
that is, the messages before it have been received, and the call gives up with at most one byte
more than the limit in its buffer. -/
theorem framing_exact (addr : AddrText) (config : ChainConfig) (networkId : Str)
    (version : UInt16) (maxMessageBytes : ℕ) (messages : List PeerMessage)
    (hid : Ascii networkId ∧ '\n' ∉ networkId)
    (htext : ∀ m ∈ messages, Ascii (nodeIdOf m) ∧ '\n' ∉ nodeIdOf m)
    (haddrs : ∀ m ∈ messages, ∀ a ∈ addrsOf m, AddrReads addr a) :
    let wire := networkWire config networkId version
    let written := messages.flatMap (writePeerMessage addr wire)
    ((∀ m ∈ messages, (writePeerMessage addr wire m).length ≤ maxMessageBytes) →
      receiveMessages addr wire maxMessageBytes messages.length ⟨written, false⟩ =
          some (messages, ⟨[], false⟩) ∧
        readLimitedLineFrom maxMessageBytes ⟨[], false⟩ = .ok (none, ⟨[], false⟩)) ∧
    ∀ before m after, messages = before ++ m :: after →
      (∀ m ∈ before, (writePeerMessage addr wire m).length ≤ maxMessageBytes) →
      maxMessageBytes < (writePeerMessage addr wire m).length →
      ∃ s, receiveMessages addr wire maxMessageBytes before.length ⟨written, false⟩ =
          some (before, s) ∧
        readLimitedLineFrom maxMessageBytes s = .error .oversized ∧
        (readLoop maxMessageBytes s.fails [] s.bytes).error = some .oversized ∧
        (readLoop maxMessageBytes s.fails [] s.bytes).buffer.length ≤ maxMessageBytes + 1 := by
  intro wire written
  let network : NetworkConfig := { NetworkConfig.default with wire, maxMessageBytes }
  have hdelivered : ∀ m ∈ messages, (writePeerMessage addr wire m).length ≤ maxMessageBytes →
      Delivered addr network network m := fun m hm hfits =>
    delivered_of_plain rfl rfl hid (htext m hm) (haddrs m hm) hfits
  refine ⟨fun hfits => ⟨?_, rfl⟩, ?_⟩
  · have hall := receiveMessages_delivered (fun m hm => hdelivered m hm (hfits m hm)) [] false
    rw [List.append_nil] at hall
    exact hall
  · rintro before m after rfl hfits hlong
    have hbefore := receiveMessages_delivered
      (fun m hm => hdelivered m (by simp [hm]) (hfits m hm))
      ((m :: after).flatMap (writePeerMessage addr wire)) false
    have hm : m ∈ before ++ m :: after := by simp
    have honeLine : '\n' ∉ encodeNetworkMessage addr wire m :=
      newline_notMem_encodeNetworkMessage hid.2 (newline_notMem_chainFingerprint config)
        (newline_notMem_encodeMessage (htext m hm).2 (haddrs m hm))
    have hgiven := readLoop_oversized honeLine hlong
      (after.flatMap (writePeerMessage addr wire)) false
    rw [← List.flatMap_append] at hbefore
    rw [← List.flatMap_cons] at hgiven
    refine ⟨_, hbefore, ?_, hgiven, readLoop_buffer_le (Nat.zero_le _) _⟩
    rw [readLimitedLineFrom_eq_readLoop]
    rcases hloop : readLoop maxMessageBytes false []
      ((m :: after).flatMap (writePeerMessage addr wire)) with ⟨line, rest, _ | e⟩
    · rw [hloop] at hgiven
      cases hgiven
    · rw [hloop] at hgiven
      cases hgiven
      rfl

/-- The line of a HELLO is longer than 150 bytes, those of the other two are not. -/
theorem framing_exact_hello :
    let wire := networkWire ChainConfig.default "local".toList protocolVersion
    let hello := .hello "node".toList 0 Digest.zero localAddr
    receiveMessages localText wire 150 2
        ⟨[.endBlocks, .peers [localAddr]].flatMap (writePeerMessage localText wire), false⟩ =
      some ([.endBlocks, .peers [localAddr]], ⟨[], false⟩) ∧
    ∃ s, receiveMessages localText wire 150 2 ⟨[.endBlocks, .peers [localAddr], hello].flatMap
        (writePeerMessage localText wire), false⟩ = some ([.endBlocks, .peers [localAddr]], s) ∧
      readLimitedLineFrom 150 s = .error .oversized := by
  intro wire hello
  have hplain : ∀ s : Str, s.all (fun c => c.toNat < 128) = true → Ascii s := by
    intro s h c hc
    simpa using List.all_eq_true.mp h c hc
  have hid : Ascii "local".toList ∧ '\n' ∉ "local".toList := ⟨hplain _ (by decide), by decide⟩
  have htexts : ∀ m ∈ [.endBlocks, .peers [localAddr], hello],
      Ascii (nodeIdOf m) ∧ '\n' ∉ nodeIdOf m := by
    intro m hm
    simp only [List.mem_cons, List.not_mem_nil, or_false] at hm
    rcases hm with rfl | rfl | rfl
    · exact ⟨hplain _ (by decide), by decide⟩
    · exact ⟨hplain _ (by decide), by decide⟩
    · exact ⟨hplain _ (by decide), by decide⟩
  have haddrs : ∀ m ∈ [.endBlocks, .peers [localAddr], hello],
      ∀ a ∈ addrsOf m, AddrReads localText a := by
    intro m hm a ha
    simp only [List.mem_cons, List.not_mem_nil, or_false] at hm
    rcases hm with rfl | rfl | rfl
    · exact nomatch ha
    · exact List.mem_singleton.mp ha ▸ localAddr_reads
    · exact List.mem_singleton.mp ha ▸ localAddr_reads
  have hlengths : (∀ m ∈ [.endBlocks, .peers [localAddr]],
      (writePeerMessage localText wire m).length ≤ 150) ∧
      150 < (writePeerMessage localText wire hello).length := by decide +kernel
  have hsub : [.endBlocks, .peers [localAddr]] ⊆ [.endBlocks, .peers [localAddr], hello] :=
    List.subset_append_left _ [hello]
  have hshort := (framing_exact localText ChainConfig.default "local".toList protocolVersion 150
    [.endBlocks, .peers [localAddr]] hid (fun m hm => htexts m (hsub hm))
    (fun m hm => haddrs m (hsub hm))).1 hlengths.1
  have hlong := (framing_exact localText ChainConfig.default "local".toList protocolVersion 150
    [.endBlocks, .peers [localAddr], hello] hid htexts haddrs).2
    [.endBlocks, .peers [localAddr]] hello [] rfl hlengths.1 hlengths.2
  obtain ⟨s, hreceived, hoversized, -⟩ := hlong
  exact ⟨hshort.1, s, hreceived, hoversized⟩

end Chesscoin.Framing

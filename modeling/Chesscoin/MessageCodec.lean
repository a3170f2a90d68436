import Chesscoin.BlockCodec

/-!
Messages are read back from the lines they are written as.

Escaping takes the separator out of the one field whose text is free, the node id, so a line
is cut where it was joined; what a field is read back as is then a matter of that field alone.
Unescaping works on bytes and makes a character of each, so a free text comes back as it was
exactly when it is ASCII. All other fields always do.

How the standard library writes an address is not part of the source. Where a message carries
addresses, what is asked of their texts is that they are drawn from the characters addresses
are written with and that they are read back.
-/

namespace Chesscoin.MessageCodec

open Chesscoin.Lib.ByteString Chesscoin.Lib.Text Chesscoin.Domain Chesscoin.Wire
  Chesscoin.BlockCodec

/-! ### Escapes -/

/-- The text with each byte of its UTF-8 form for a character. -/
def byteChars (s : Str) : Str := (utf8 s).map fun b => Char.ofNat b.toNat

lemma byteChars_length (s : Str) : (byteChars s).length = (utf8 s).length := List.length_map _

lemma byteChars_ascii {s : Str} (h : Ascii s) : byteChars s = s := by
  rw [byteChars, utf8_ascii h, List.map_map]
  refine (List.map_congr_left fun c hc => ?_).trans (List.map_id s)
  have hlt : c.toNat < 256 := by
    have := h c hc
    omega
  simp only [Function.comp_apply, UInt8.toNat_ofNat', Nat.mod_eq_of_lt hlt, id]
  exact Char.ofNat_toNat c

/-- A text is its bytes read as characters exactly when it is ASCII. -/
lemma byteChars_eq_iff (s : Str) : byteChars s = s ↔ Ascii s := by
  refine ⟨fun h => (utf8_length_eq_iff s).mp ?_, byteChars_ascii⟩
  rw [← byteChars_length, h]

/-- What a character is escaped to. -/
def escapeChar (c : Char) : Str :=
  if c = '%' then "%25".toList else if c = '|' then "%7C".toList else [c]

lemma escape_eq (s : Str) : escape s = s.flatMap escapeChar := by
  rw [escape, replace, replace, List.flatMap_assoc]
  congr 1
  funext c
  unfold escapeChar
  split
  · rfl
  · simp

lemma bar_notMem_escape (s : Str) : '|' ∉ escape s := by
  rw [escape_eq, List.mem_flatMap]
  rintro ⟨c, -, hc⟩
  unfold escapeChar at hc
  split at hc
  · exact absurd hc (by decide)
  · split at hc
    · exact absurd hc (by decide)
    · next hbar => exact hbar (List.mem_singleton.mp hc).symm

lemma unescapeBytes_cons {b : UInt8} (h : b ≠ 37) (rest : Bytes) :
    unescapeBytes (b :: rest) = (unescapeBytes rest).map (Char.ofNat b.toNat :: ·) := by
  rcases rest with _ | ⟨high, _ | ⟨low, rest⟩⟩ <;> simp [unescapeBytes, h]

/-- Bytes that are not percent signs pass as they are. -/
lemma unescapeBytes_append {bs : Bytes} (h : ∀ b ∈ bs, b ≠ 37) (rest : Bytes) :
    unescapeBytes (bs ++ rest) =
      (unescapeBytes rest).map (bs.map (fun b => Char.ofNat b.toNat) ++ ·) := by
  induction bs with
  | nil =>
    rw [List.nil_append]
    cases unescapeBytes rest <;> rfl
  | cons b bs ih =>
    have hb : b ≠ 37 := h b (by simp)
    have hbs := ih fun c hc => h c (by simp [hc])
    rw [List.cons_append, unescapeBytes_cons hb, hbs]
    cases unescapeBytes rest <;> rfl

lemma percent_notMem_utf8EncodeChar {c : Char} (h : c ≠ '%') :
    ∀ b ∈ String.utf8EncodeChar c, b ≠ 37 := by
  rintro b hb rfl
  by_cases hc : c.toNat < 128
  · rw [utf8EncodeChar_ascii hc, List.mem_singleton] at hb
    have hnat := congrArg UInt8.toNat hb
    rw [UInt8.toNat_ofNat', Nat.mod_eq_of_lt (by omega)] at hnat
    refine h ?_
    rw [← Char.ofNat_toNat c, ← hnat]
    rfl
  · have hle := le_of_mem_utf8EncodeChar (by omega) hb
    exact absurd hle (by decide)

/-- One escaped character is read as its bytes. -/
lemma unescapeBytes_escapeChar (c : Char) (rest : Bytes) :
    unescapeBytes (utf8 (escapeChar c) ++ rest) =
      (unescapeBytes rest).map (byteChars [c] ++ ·) := by
  unfold escapeChar
  split
  · next hc =>
    subst hc
    rfl
  · next hc =>
    split
    · next hbar =>
      subst hbar
      rfl
    · rw [unescapeBytes_append]
      · rfl
      · rw [utf8_cons, utf8_nil, List.append_nil]
        exact percent_notMem_utf8EncodeChar hc

/-- **What escaping and unescaping make of a text**: its bytes, read as characters. -/
theorem unescape_escape (s : Str) : unescape (escape s) = .ok (byteChars s) := by
  rw [unescape, escape_eq]
  induction s with
  | nil => rfl
  | cons c s ih =>
    rw [List.flatMap_cons, utf8_append, unescapeBytes_escapeChar, ih]
    simp [byteChars, utf8_cons, Except.map]

/-! ### Addresses and headers -/

/-- The characters addresses are written with. -/
def addrAlphabet : Str := "0123456789abcdef.:[]%".toList

/-- What the standard library promises of the text of an address. -/
structure AddrReads (addr : AddrText) (a : SocketAddr) : Prop where
  readBack : addr.fromStr (addr.display a) = some a
  subset : addr.display a ⊆ addrAlphabet
  ne_nil : addr.display a ≠ []

variable {addr : AddrText}

lemma AddrReads.parseField {a : SocketAddr} (h : AddrReads addr a) (name : String) :
    parseField addr.fromStr name (addr.display a) = .ok a := by
  rw [Wire.parseField, h.readBack]

lemma encodeHeader_fields (h : BlockHeader) :
    ∀ s ∈ [showU64 h.height, h.previousBlock.toHex, encodeModel h.modelBefore,
      encodeModel h.modelAfter, h.traceRoot.toHex, showU64 h.trainingSeed,
      showU64 h.samplingEntropy, showU64 h.sampleCount, showU64 h.nonce], s ⊆ fieldAlphabet := by
  simp [showU64_subset, toHex_field, encodeModel_subset]

lemma encodeHeader_subset (h : BlockHeader) : encodeHeader h ⊆ entryAlphabet :=
  join_subset (by decide) fun s hs =>
    List.Subset.trans (encodeHeader_fields h s hs) (by decide)

lemma encodeHeader_ne_nil (h : BlockHeader) : encodeHeader h ≠ [] := by
  rw [encodeHeader, join, intercalate_cons_cons]
  simp

lemma decodeHeader_encodeHeader (h : BlockHeader) : decodeHeader (encodeHeader h) = .ok h := by
  have hsplit : (encodeHeader h).splitOn ',' =
      [showU64 h.height, h.previousBlock.toHex, encodeModel h.modelBefore,
        encodeModel h.modelAfter, h.traceRoot.toHex, showU64 h.trainingSeed,
        showU64 h.samplingEntropy, showU64 h.sampleCount, showU64 h.nonce] :=
    splitOn_intercalate (A := fieldAlphabet) (by decide) (encodeHeader_fields h) (by simp)
  rw [decodeHeader, hsplit]
  simp only [Digest.fromHex_toHex, parseU64_showU64, decodeModel_encodeModel]
  rfl

/-! ### Lists -/

lemma toHex_ne_nil (d : Digest) : d.toHex ≠ [] := by
  intro h
  have hlen := d.toHex_length
  rw [h] at hlen
  cases hlen

lemma decodeDigestList_encode (ds : List Digest) :
    decodeDigestList (encodeDigests ds) = .ok ds :=
  decodeList_join (A := fieldAlphabet) (by decide) (fun d _ => toHex_field d)
    (fun d _ => toHex_ne_nil d) fun d _ => d.fromHex_toHex

lemma decodeHeaderList_encode (hs : List BlockHeader) :
    decodeList ';' decodeHeader (join ';' (hs.map encodeHeader)) = .ok hs :=
  decodeList_join (A := entryAlphabet) (by decide) (fun h _ => encodeHeader_subset h)
    (fun h _ => encodeHeader_ne_nil h) fun h _ => decodeHeader_encodeHeader h

lemma decodePeerList_encode {peers : List SocketAddr} (h : ∀ a ∈ peers, AddrReads addr a) :
    decodeList ',' (parseField addr.fromStr "peer address") (join ',' (peers.map addr.display)) =
      .ok peers :=
  decodeList_join (A := addrAlphabet) (by decide) (fun a ha => (h a ha).subset)
    (fun a ha => (h a ha).ne_nil) fun a ha => (h a ha).parseField _

/-! ### Lines -/

/-- The characters of all fields whose text is not free. -/
def messageAlphabet : Str := bodyAlphabet ++ addrAlphabet

lemma field_line {s : Str} (h : s ⊆ fieldAlphabet) : s ⊆ messageAlphabet :=
  List.Subset.trans h (by decide)

lemma encodeDigests_line (ds : List Digest) : encodeDigests ds ⊆ messageAlphabet := by
  refine join_subset (by decide) fun s hs => ?_
  obtain ⟨d, -, rfl⟩ := List.mem_map.mp hs
  exact field_line (toHex_field d)

lemma encodeHeaders_line (hs : List BlockHeader) :
    join ';' (hs.map encodeHeader) ⊆ messageAlphabet := by
  refine join_subset (by decide) fun s hmem => ?_
  obtain ⟨h, -, rfl⟩ := List.mem_map.mp hmem
  exact List.Subset.trans (encodeHeader_subset h) (by decide)

lemma addr_line {a : SocketAddr} (h : AddrReads addr a) : addr.display a ⊆ messageAlphabet :=
  List.Subset.trans h.subset (by decide)

lemma encodePeers_line {peers : List SocketAddr} (h : ∀ a ∈ peers, AddrReads addr a) :
    join ',' (peers.map addr.display) ⊆ messageAlphabet := by
  refine join_subset (by decide) fun s hs => ?_
  obtain ⟨a, ha, rfl⟩ := List.mem_map.mp hs
  exact addr_line (h a ha)

lemma bar_notMem_line {s : Str} (h : s ⊆ messageAlphabet) : '|' ∉ s := fun hmem =>
  absurd (h hmem) (by decide)

/-- The text does not end with a line ending. -/
def Ends (s : Str) : Prop := ∀ c, s.getLast? = some c → c ≠ '\r' ∧ c ≠ '\n'

lemma Ends.trimEnd {s : Str} (h : Ends s) : trimEnd s = s := by
  refine List.rdropWhile_eq_self_iff.mpr fun hne => ?_
  simp only [Bool.or_eq_true, beq_iff_eq, not_or]
  exact h _ (List.getLast?_eq_getLast_of_ne_nil hne)

lemma Ends.field {t : Str} (h : Ends t) (s : Str) : Ends (s ++ '|' :: t) := by
  intro c hc
  rw [List.getLast?_append_of_ne_nil _ (List.cons_ne_nil _ _)] at hc
  cases t with
  | nil =>
    cases hc
    decide
  | cons d t => exact h c (by rwa [List.getLast?_cons_cons] at hc)

lemma ends_line {s : Str} (h : s ⊆ messageAlphabet) : Ends s := by
  intro c hc
  have hmem := h (List.mem_of_getLast? hc)
  refine ⟨?_, ?_⟩ <;> rintro rfl <;> exact absurd hmem (by decide)

lemma join_concat (sep : Char) (a : Str) (l : List Str) (last : Str) :
    join sep (a :: (l ++ [last])) = join sep (a :: l) ++ sep :: last := by
  induction l generalizing a with
  | nil => simp [join, List.intercalate]
  | cons b l ih =>
    rw [join, join, List.cons_append, intercalate_cons_cons, intercalate_cons_cons,
      List.append_assoc, List.cons_append]
    exact congrArg (a ++ sep :: ·) (ih b)

lemma ends_join (kind : Str) (fields : List Str) {last : Str} (hlast : last ⊆ messageAlphabet) :
    Ends (join '|' (kind :: (fields ++ [last]))) := by
  rw [join_concat]
  exact (ends_line hlast).field _

/-- A line is cut into the fields it was joined of and read by the decoder its first field
names. -/
lemma decodeMessage_join (addr : AddrText) (kind : Str) (fields : List Str) (last : Str)
    (hbar : ∀ s ∈ kind :: fields, '|' ∉ s) (hlast : last ⊆ messageAlphabet) :
    decodeMessage addr (join '|' (kind :: (fields ++ [last]))) =
      messageDecoder addr kind (kind :: (fields ++ [last])) := by
  have hsplit : (join '|' (kind :: (fields ++ [last]))).splitOn '|' =
      kind :: (fields ++ [last]) := by
    refine List.splitOn_intercalate '|' (fun s hs => ?_) (by simp)
    rcases List.mem_append.mp (by simpa using hs : s ∈ (kind :: fields) ++ [last]) with hs | hs
    · exact hbar s hs
    · rw [List.mem_singleton.mp hs]
      exact bar_notMem_line hlast
  rw [decodeMessage, (ends_join kind fields hlast).trimEnd, hsplit]
  rfl

/-! ### Messages -/

/-- The addresses a message carries. -/
def addrsOf : PeerMessage → List SocketAddr
  | .hello _ _ _ listenAddr => [listenAddr]
  | .peers peers => peers
  | _ => []

/-- The free text of a message. -/
def nodeIdOf : PeerMessage → Str
  | .hello nodeId _ _ _ => nodeId
  | _ => []

/-- The message as it is read: the free text is read byte by byte. -/
def asRead : PeerMessage → PeerMessage
  | .hello nodeId height head listenAddr => .hello (byteChars nodeId) height head listenAddr
  | message => message

lemma asRead_eq_iff (message : PeerMessage) :
    asRead message = message ↔ Ascii (nodeIdOf message) := by
  cases message with
  | hello nodeId height head listenAddr =>
    rw [asRead, PeerMessage.hello.injEq]
    simp only [and_true]
    exact byteChars_eq_iff nodeId
  | _ => exact iff_of_true rfl fun c hc => nomatch hc

lemma decodeHello_fields {a : SocketAddr} (h : AddrReads addr a) (kind nodeId : Str)
    (height : UInt64) (head : Digest) :
    decodeHello addr [kind, escape nodeId, showU64 height, head.toHex, addr.display a] =
      .ok (.hello (byteChars nodeId) height head a) := by
  simp only [decodeHello, unescape_escape, parseU64_showU64, Digest.fromHex_toHex, h.parseField]
  rfl

lemma decodeMessage_hello {a : SocketAddr} (h : AddrReads addr a) (nodeId : Str)
    (height : UInt64) (head : Digest) :
    decodeMessage addr (encodeMessage addr (.hello nodeId height head a)) =
      .ok (.hello (byteChars nodeId) height head a) := by
  have hcut := decodeMessage_join addr "HELLO".toList [escape nodeId, showU64 height, head.toHex]
    (addr.display a) (by
      intro s hs
      simp only [List.mem_cons, List.not_mem_nil, or_false] at hs
      rcases hs with rfl | rfl | rfl | rfl
      · decide
      · exact bar_notMem_escape nodeId
      · exact bar_notMem_line (field_line (showU64_subset height))
      · exact bar_notMem_line (field_line (toHex_field head))) (addr_line h)
  exact hcut.trans (decodeHello_fields h "HELLO".toList nodeId height head)

/-- The lines whose one field is a list. -/
lemma decodeMessage_one (addr : AddrText) (kind last : Str) (hkind : '|' ∉ kind)
    (hlast : last ⊆ messageAlphabet) :
    decodeMessage addr (join '|' [kind, last]) = messageDecoder addr kind [kind, last] :=
  decodeMessage_join addr kind [] last (by simpa using hkind) hlast

/-- The lines of two fields. -/
lemma decodeMessage_two (addr : AddrText) (kind first last : Str) (hkind : '|' ∉ kind)
    (hfirst : first ⊆ messageAlphabet) (hlast : last ⊆ messageAlphabet) :
    decodeMessage addr (join '|' [kind, first, last]) =
      messageDecoder addr kind [kind, first, last] :=
  decodeMessage_join addr kind [first] last
    (by simpa using ⟨hkind, bar_notMem_line hfirst⟩) hlast

lemma decodeGetBlocks_fields (kind : Str) (fromHeight : UInt64) (limit : Usize) :
    decodeGetBlocks [kind, showU64 fromHeight, showU64 limit] =
      .ok (.getBlocks fromHeight limit) := by
  simp only [decodeGetBlocks, parseU64_showU64]
  rfl

lemma decodeInventory_fields (kind : Str) (hashes : List Digest) :
    decodeInventory [kind, encodeDigests hashes] = .ok (.inventory hashes) := by
  simp only [decodeInventory, decodeDigestList_encode]
  rfl

lemma decodeHeaders_fields (kind : Str) (headers : List BlockHeader) :
    decodeHeaders [kind, join ';' (headers.map encodeHeader)] = .ok (.headers headers) := by
  simp only [decodeHeaders, decodeHeaderList_encode]
  rfl

lemma decodeGetPeers_fields (kind : Str) (limit : Usize) :
    decodeGetPeers [kind, showU64 limit] = .ok (.getPeers limit) := by
  simp only [decodeGetPeers, parseU64_showU64]
  rfl

lemma decodePeers_fields {peers : List SocketAddr} (h : ∀ a ∈ peers, AddrReads addr a)
    (kind : Str) :
    decodePeers addr [kind, join ',' (peers.map addr.display)] = .ok (.peers peers) := by
  simp only [decodePeers, decodePeerList_encode h]
  rfl

lemma decodeLocatorRequest_fields (make : List Digest → Usize → PeerMessage) (name : String)
    (kind : Str) (locator : List Digest) (limit : Usize) :
    decodeLocatorRequest make name [kind, encodeDigests locator, showU64 limit] =
      .ok (make locator limit) := by
  simp only [decodeLocatorRequest, decodeDigestList_encode, parseU64_showU64]
  rfl

/-- **What a message is read back as.** -/
theorem decodeMessage_encode (message : PeerMessage)
    (haddrs : ∀ a ∈ addrsOf message, AddrReads addr a) :
    decodeMessage addr (encodeMessage addr message) = .ok (asRead message) := by
  have hlimit : ∀ limit : Usize, showU64 limit ⊆ messageAlphabet := fun limit =>
    field_line (showU64_subset limit)
  cases message with
  | hello nodeId height head a =>
    exact decodeMessage_hello (haddrs a (by simp [addrsOf])) nodeId height head
  | getBlocks fromHeight limit =>
    refine (decodeMessage_two addr _ _ _ (by decide) (hlimit _) (hlimit _)).trans ?_
    exact decodeGetBlocks_fields "GET_BLOCKS".toList fromHeight limit
  | getBlocksByLocator locator limit =>
    refine (decodeMessage_two addr _ _ _ (by decide) (encodeDigests_line _) (hlimit _)).trans ?_
    exact decodeLocatorRequest_fields .getBlocksByLocator "GET_BLOCKS_LOCATOR"
      "GET_BLOCKS_LOCATOR".toList locator limit
  | getInventory locator limit =>
    refine (decodeMessage_two addr _ _ _ (by decide) (encodeDigests_line _) (hlimit _)).trans ?_
    exact decodeLocatorRequest_fields .getInventory "GET_INVENTORY" "GET_INVENTORY".toList
      locator limit
  | inventory hashes =>
    refine (decodeMessage_one addr _ _ (by decide) (encodeDigests_line _)).trans ?_
    exact decodeInventory_fields "INVENTORY".toList hashes
  | getHeaders locator limit =>
    refine (decodeMessage_two addr _ _ _ (by decide) (encodeDigests_line _) (hlimit _)).trans ?_
    exact decodeLocatorRequest_fields .getHeaders "GET_HEADERS" "GET_HEADERS".toList locator limit
  | headers headers =>
    refine (decodeMessage_one addr _ _ (by decide) (encodeHeaders_line _)).trans ?_
    exact decodeHeaders_fields "HEADERS".toList headers
  | getPeers limit =>
    refine (decodeMessage_one addr _ _ (by decide) (hlimit _)).trans ?_
    exact decodeGetPeers_fields "GET_PEERS".toList limit
  | peers peers =>
    refine (decodeMessage_one addr _ _ (by decide) (encodePeers_line haddrs)).trans ?_
    exact decodePeers_fields haddrs "PEERS".toList
  | block b => exact decodeMessage_encodeBlock addr b
  | endBlocks => rfl

lemma encodeEntries_line (es : List TraceEntry) :
    join ';' (es.map encodeEntry) ⊆ messageAlphabet :=
  List.Subset.trans (encodeEntries_subset es) (by decide)

/-- No message ends with a line ending. -/
lemma encodeMessage_ends (message : PeerMessage)
    (haddrs : ∀ a ∈ addrsOf message, AddrReads addr a) : Ends (encodeMessage addr message) := by
  have hlimit : ∀ limit : Usize, showU64 limit ⊆ messageAlphabet := fun limit =>
    field_line (showU64_subset limit)
  cases message with
  | hello nodeId height head a =>
    exact ends_join _ [_, _, _] (addr_line (haddrs a (by simp [addrsOf])))
  | getBlocks _ limit => exact ends_join _ [_] (hlimit limit)
  | getBlocksByLocator _ limit => exact ends_join _ [_] (hlimit limit)
  | getInventory _ limit => exact ends_join _ [_] (hlimit limit)
  | inventory hashes => exact ends_join _ [] (encodeDigests_line hashes)
  | getHeaders _ limit => exact ends_join _ [_] (hlimit limit)
  | headers headers => exact ends_join _ [] (encodeHeaders_line headers)
  | getPeers limit => exact ends_join _ [] (hlimit limit)
  | peers peers => exact ends_join _ [] (encodePeers_line haddrs)
  | block b => exact ends_join _ [_, _, _, _, _, _, _, _, _, _, _, _] (encodeEntries_line _)
  | endBlocks =>
    intro c hc
    cases hc
    decide

/-! ### The round trip -/

lemma decodeMessage_encode_ascii {message : PeerMessage}
    (haddrs : ∀ a ∈ addrsOf message, AddrReads addr a) (hascii : Ascii (nodeIdOf message)) :
    decodeMessage addr (encodeMessage addr message) = .ok message := by
  rw [decodeMessage_encode message haddrs, (asRead_eq_iff message).mpr hascii]

/-- **Messages are read back**, all eleven kinds with lists and traces of any length, from a
HELLO with an ASCII node id on; so no two messages are written alike, and blocks are read back
by themselves. -/
theorem message_codec_round_trip (addr : AddrText) :
    (∀ message, (∀ a ∈ addrsOf message, AddrReads addr a) → Ascii (nodeIdOf message) →
        decodeMessage addr (encodeMessage addr message) = .ok message) ∧
      (∀ message message', (∀ a ∈ addrsOf message, AddrReads addr a) →
        (∀ a ∈ addrsOf message', AddrReads addr a) → Ascii (nodeIdOf message) →
        Ascii (nodeIdOf message') → encodeMessage addr message = encodeMessage addr message' →
        message = message') ∧
      ∀ b, decodeBlockMessage addr (encodeBlockMessage b) = .ok b := by
  refine ⟨fun message haddrs hascii => decodeMessage_encode_ascii haddrs hascii, ?_,
    decodeBlockMessage_encode addr⟩
  intro message message' haddrs haddrs' hascii hascii' heq
  have hread := decodeMessage_encode_ascii haddrs hascii
  rw [heq, decodeMessage_encode_ascii haddrs' hascii'] at hread
  exact (Except.ok.inj hread).symm

/-! An address of the local host, with its text. -/

def localAddr : SocketAddr := .v4 0x7f000001 9333

def localText : AddrText :=
  { display := fun a => if a = localAddr then "127.0.0.1:9333".toList else []
    fromStr := fun s => if s = "127.0.0.1:9333".toList then some localAddr else none }

lemma localAddr_reads : AddrReads localText localAddr := ⟨by decide, by decide, by decide⟩

theorem message_codec_round_trip_bars :
    decodeMessage localText
        (encodeMessage localText (.hello "a|b%7C".toList 0 Digest.zero localAddr)) =
      .ok (.hello "a|b%7C".toList 0 Digest.zero localAddr) := by
  have hascii : ("a|b%7C".toList).all (fun c => c.toNat < 128) = true := by decide
  refine (message_codec_round_trip localText).1 _ ?_ ?_
  · intro a ha
    rw [List.mem_singleton.mp ha]
    exact localAddr_reads
  · intro c hc
    simpa using List.all_eq_true.mp hascii c hc

end Chesscoin.MessageCodec

import Mathlib.Algebra.Order.BigOperators.Group.List
import Chesscoin.Framing

/-!
What gets through.

Within one network whose id is plain, the messages of a sync are single lines and are read as
they were written, so all that can stop one is its size. The requests are bounded by the length
of a locator, the answers by the chain of the peer.
-/

namespace Chesscoin.Delivery

open Chesscoin.Lib.ByteString Chesscoin.Lib.Text Chesscoin.Domain Chesscoin.Validation
  Chesscoin.Wire Chesscoin.Config Chesscoin.Runtime Chesscoin.BlockCodec Chesscoin.MessageCodec
  Chesscoin.LogLines Chesscoin.Envelope Chesscoin.Serving Chesscoin.Exchange Chesscoin.Framing

variable {addr : AddrText} {config : ChainConfig} {source target : NetworkConfig}
  {message : PeerMessage} {st p : NodeState}

/-! ### The messages of a sync -/

/-- What is written and read when a node syncs. -/
def OfSync : PeerMessage → Prop
  | .getHeaders _ _ => True
  | .getBlocksByLocator _ _ => True
  | .headers _ => True
  | .block _ => True
  | .endBlocks => True
  | _ => False

/-- The characters it is written in. -/
def syncAlphabet : Str :=
  "GET_BLOCKS_LOCATOR".toList ++ "GET_HEADERS".toList ++ "END_BLOCKS".toList ++ blockAlphabet

lemma encodeDigests_subset (ds : List Digest) : encodeDigests ds ⊆ syncAlphabet := by
  refine join_subset (by decide) fun s hs => ?_
  obtain ⟨d, -, rfl⟩ := List.mem_map.mp hs
  exact List.Subset.trans (toHex_field d) (by decide)

lemma request_subset {name : Str} (hname : name ⊆ syncAlphabet) (locator : List Digest)
    (limit : Usize) :
    join '|' [name, encodeDigests locator, showU64 limit] ⊆ syncAlphabet := by
  refine join_subset (by decide) fun s hs => ?_
  simp only [List.mem_cons, List.not_mem_nil, or_false] at hs
  rcases hs with rfl | rfl | rfl
  · exact hname
  · exact encodeDigests_subset locator
  · exact List.Subset.trans (showU64_subset limit) (by decide)

lemma encodeMessage_subset (h : OfSync message) : encodeMessage addr message ⊆ syncAlphabet := by
  cases message with
  | getHeaders locator limit => exact request_subset (by decide) locator limit
  | getBlocksByLocator locator limit => exact request_subset (by decide) locator limit
  | headers headers =>
    refine join_subset (by decide) fun s hs => ?_
    simp only [List.mem_cons, List.not_mem_nil, or_false] at hs
    rcases hs with rfl | rfl
    · decide
    · refine List.Subset.trans (join_subset (by decide) fun s hs => ?_)
        (by decide : bodyAlphabet ⊆ syncAlphabet)
      obtain ⟨h, -, rfl⟩ := List.mem_map.mp hs
      exact List.Subset.trans (encodeHeader_subset h) (by decide)
  | block b => exact List.Subset.trans (encodeBlock_subset b) (by decide)
  | endBlocks => exact (by decide : "END_BLOCKS".toList ⊆ syncAlphabet)
  | _ => exact h.elim

lemma syncAlphabet_ascii : Ascii syncAlphabet := by
  have h : syncAlphabet.all (fun c => c.toNat < 128) = true := by decide
  intro c hc
  simpa using List.all_eq_true.mp h c hc

/-! ### One network -/

/-- The two write and read in one network, whose id is plain. -/
structure OneNetwork (config : ChainConfig) (source target : NetworkConfig) : Prop where
  wire : target.wire = source.wire
  fingerprint : source.wire.chainFingerprint = chainFingerprint config
  ascii : Ascii source.wire.networkId
  oneLine : '\n' ∉ source.wire.networkId

lemma OneNetwork.symm (h : OneNetwork config source target) : OneNetwork config target source :=
  ⟨h.wire.symm, h.wire ▸ h.fingerprint, h.wire ▸ h.ascii, h.wire ▸ h.oneLine⟩

/-- The characters of the escapes. -/
def escapeAlphabet : Str := "%257C".toList

lemma escape_subset (s : Str) : escape s ⊆ escapeAlphabet ++ s := by
  intro d hd
  rw [escape_eq, List.mem_flatMap] at hd
  obtain ⟨c, hc, hd⟩ := hd
  unfold escapeChar at hd
  split at hd
  · exact List.mem_append_left _ ((by decide : "%25".toList ⊆ escapeAlphabet) hd)
  · split at hd
    · exact List.mem_append_left _ ((by decide : "%7C".toList ⊆ escapeAlphabet) hd)
    · rw [List.mem_singleton] at hd
      exact List.mem_append_right _ (hd ▸ hc)

/-- The characters of a line. -/
def lineAlphabet (networkId : Str) : Str :=
  wireMagic ++ '|' :: digits ++ escapeAlphabet ++ networkId ++ fingerprintAlphabet ++ syncAlphabet

lemma line_subset (h : OneNetwork config source target) (hsync : OfSync message) :
    encodeNetworkMessage addr source.wire message ⊆ lineAlphabet source.wire.networkId := by
  refine join_subset (by simp [lineAlphabet]) fun s hs => ?_
  simp only [List.mem_cons, List.not_mem_nil, or_false] at hs
  rcases hs with rfl | rfl | rfl | rfl | rfl
  · intro c hc
    simp [lineAlphabet, hc]
  · intro c hc
    simp [lineAlphabet, showNat_subset _ hc]
  · intro c hc
    rcases List.mem_append.mp (escape_subset _ hc) with hc | hc
    · simp [lineAlphabet, hc]
    · simp [lineAlphabet, hc]
  · intro c hc
    rcases List.mem_append.mp (escape_subset _ hc) with hc | hc
    · simp [lineAlphabet, hc]
    · rw [h.fingerprint] at hc
      simp [lineAlphabet, chainFingerprint_subset config hc]
  · intro c hc
    simp [lineAlphabet, encodeMessage_subset hsync hc]

lemma line_ascii (h : OneNetwork config source target) (hsync : OfSync message) :
    Ascii (encodeNetworkMessage addr source.wire message) := by
  have hplain : (wireMagic ++ '|' :: digits ++ escapeAlphabet).all (fun c => c.toNat < 128) =
      true := by decide
  have hprint : fingerprintAlphabet.all (fun c => c.toNat < 128) = true := by decide
  refine Ascii.mono (line_subset h hsync) (((Ascii.append ?_ h.ascii).append ?_).append
    syncAlphabet_ascii)
  · intro c hc
    simpa using List.all_eq_true.mp hplain c hc
  · intro c hc
    simpa using List.all_eq_true.mp hprint c hc

/-! ### Size -/

/-- The message fits into the limit of the node that reads it. -/
def Fits (addr : AddrText) (source target : NetworkConfig) (message : PeerMessage) : Prop :=
  (writePeerMessage addr source.wire message).length ≤ target.maxMessageBytes

/-- **What fits gets through** within one network. -/
theorem delivered_of_fits (h : OneNetwork config source target) (hsync : OfSync message)
    (hfits : Fits addr source target message) : Delivered addr source target message := by
  have haddrs : ∀ a ∈ addrsOf message, AddrReads addr a := by
    cases message with
    | hello => exact hsync.elim
    | peers => exact hsync.elim
    | _ => exact fun a ha => nomatch ha
  have htext : nodeIdOf message = [] := by
    cases message with
    | hello => exact hsync.elim
    | _ => rfl
  refine delivered_of_plain h.wire h.fingerprint ⟨h.ascii, h.oneLine⟩ ?_ haddrs hfits
  rw [htext]
  exact ⟨fun c hc => (nomatch hc), List.not_mem_nil⟩

theorem undisturbed_of_fits (h : OneNetwork config st.network p.network)
    (hfits : Traffic (Fits addr) st p) : Undisturbed addr st p where
  headersRequest locator limit hloc hlimit :=
    delivered_of_fits h trivial (hfits.headersRequest locator limit hloc hlimit)
  blocksRequest locator limit hloc hlimit :=
    delivered_of_fits h trivial (hfits.blocksRequest locator limit hloc hlimit)
  headers s n hn := delivered_of_fits h.symm trivial (hfits.headers s n hn)
  blocks b hb := delivered_of_fits h.symm trivial (hfits.blocks b hb)
  endBlocks := delivered_of_fits h.symm trivial hfits.endBlocks

/-- The length of a line without the message on it. -/
def envelopeLength (wire : WireConfig) : ℕ :=
  wireMagic.length + (showNat wire.protocolVersion.toNat).length + (escape wire.networkId).length +
    (escape wire.chainFingerprint).length + 5

lemma written_length (h : OneNetwork config source target) (message : PeerMessage)
    (hsync : OfSync message) :
    (writePeerMessage addr source.wire message).length =
      envelopeLength source.wire + (encodeMessage addr message).length := by
  have hascii : Ascii (encodeNetworkMessage addr source.wire message ++ ['\n']) :=
    (line_ascii h hsync).append (by simp [Ascii])
  rw [writePeerMessage, utf8_length_ascii hascii, encodeNetworkMessage_eq, envelopeLength]
  simp only [List.length_append, List.length_cons, List.length_nil]
  omega

lemma join_length_le (sep : Char) (pieces : List Str) :
    (join sep pieces).length ≤ (pieces.map fun s => s.length + 1).sum := by
  induction pieces with
  | nil => exact le_rfl
  | cons s pieces ih =>
    cases pieces with
    | nil => simp [join, List.intercalate]
    | cons t pieces =>
      rw [join, intercalate_cons_cons, List.length_append, List.length_cons, List.map_cons,
        List.sum_cons]
      have hrest : ([sep].intercalate (t :: pieces)).length ≤ _ := ih
      omega

lemma encodeDigests_length_le (ds : List Digest) : (encodeDigests ds).length ≤ 65 * ds.length := by
  refine (join_length_le _ _).trans (Nat.le_of_eq ?_)
  induction ds with
  | nil => rfl
  | cons d ds ih =>
    rw [List.map_cons, List.map_cons, List.sum_cons, ih, d.toHex_length, List.length_cons]
    omega

lemma showU64_length_le (x : UInt64) : (showU64 x).length ≤ 20 :=
  (Nat.length_toDigits_le_iff (by decide) (by decide)).mpr
    (lt_of_lt_of_le (UInt64.toNat_lt x) (by decide))

lemma request_length_le (name : Str) (locator : List Digest) (limit : Usize) :
    (join '|' [name, encodeDigests locator, showU64 limit]).length ≤
      name.length + 22 + 65 * locator.length := by
  have hdigests : (encodeDigests locator).length ≤ 65 * locator.length :=
    encodeDigests_length_le locator
  have hlimit : (showU64 limit).length ≤ 20 := showU64_length_le limit
  rw [join, intercalate_cons_cons, intercalate_cons_cons]
  simp only [List.intercalate, List.intersperse, List.flatten_cons, List.flatten_nil,
    List.append_nil, List.length_append, List.length_cons]
  omega

lemma list_length_le {α : Type} (name : Str) (encode : α → Str) (sep : Char) (items : List α) :
    (join '|' [name, join sep (items.map encode)]).length ≤
      name.length + 1 + (items.map fun a => (encode a).length + 1).sum := by
  have hjoin := join_length_le sep (items.map encode)
  rw [List.map_map] at hjoin
  rw [join, intercalate_cons_cons]
  simp only [List.intercalate, List.intersperse, List.flatten_cons, List.flatten_nil,
    List.append_nil, List.length_append, List.length_cons]
  have hbody := Nat.add_le_add_left hjoin (name.length + 1)
  rwa [Nat.add_assoc, Nat.add_comm 1] at hbody

/-- **Requests fit by the length of a locator, answers by the chain of the peer.** -/
theorem undisturbed_of_sizes (h : OneNetwork config st.network p.network)
    (hrequest : envelopeLength st.network.wire + 40 + 65 * st.sync.maxLocatorHashes ≤
      p.network.maxMessageBytes)
    (hheaders : envelopeLength p.network.wire + 10 +
      (p.chain.blocks.map fun b => (encodeHeader b.header).length + 1).sum ≤
        st.network.maxMessageBytes)
    (hblocks : ∀ b ∈ p.chain.blocks, envelopeLength p.network.wire + (encodeBlock b).length ≤
      st.network.maxMessageBytes) : Undisturbed addr st p := by
  refine undisturbed_of_fits h ⟨?_, ?_, ?_, ?_, ?_⟩
  · intro locator limit hloc _
    rw [Fits, written_length h (.getHeaders locator (UInt64.ofNat limit)) trivial]
    refine (Nat.add_le_add_left (request_length_le "GET_HEADERS".toList _ _) _).trans ?_
    have hname : "GET_HEADERS".toList.length = 11 := by decide
    rw [hname]
    omega
  · intro locator limit hloc _
    rw [Fits, written_length h (.getBlocksByLocator locator (UInt64.ofNat limit)) trivial]
    refine (Nat.add_le_add_left (request_length_le "GET_BLOCKS_LOCATOR".toList _ _) _).trans ?_
    have hname : "GET_BLOCKS_LOCATOR".toList.length = 18 := by decide
    rw [hname]
    omega
  · intro s n _
    have hsub : ((p.chain.blocks.drop s).take n).Sublist p.chain.blocks :=
      (List.take_sublist n _).trans (List.drop_sublist s _)
    have hsum : ((((p.chain.blocks.drop s).take n).map (·.header)).map
        fun h => (encodeHeader h).length + 1).sum ≤
          (p.chain.blocks.map fun b => (encodeHeader b.header).length + 1).sum := by
      rw [List.map_map]
      exact (hsub.map _).sum_le_sum fun _ _ => Nat.zero_le _
    have hname : "HEADERS".toList.length = 7 := by decide
    rw [Fits, written_length h.symm
      (.headers (((p.chain.blocks.drop s).take n).map (·.header))) trivial]
    refine (Nat.add_le_add_left (list_length_le "HEADERS".toList encodeHeader ';' _) _).trans ?_
    rw [hname]
    omega
  · intro b hb
    rw [Fits, written_length h.symm (.block b) trivial]
    exact hblocks b hb
  · have hname : (encodeMessage addr .endBlocks).length = 10 := by
      show "END_BLOCKS".toList.length = 10
      decide
    rw [Fits, written_length h.symm .endBlocks trivial, hname]
    omega

end Chesscoin.Delivery

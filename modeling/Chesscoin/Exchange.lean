import Chesscoin.Envelope
import Chesscoin.Sync

/-!
Exchanges in which nothing is lost.

A message gets from one node to another when its line is one line, fits into the reader's
limit, and is read as what was written. When the messages of a sync get through, asking an
honest peer is looking up in its active chain: the headers come from where the locator leads,
and the blocks asked for afterwards are the blocks of these headers.
-/

namespace Chesscoin.Exchange

open Chesscoin.Lib.ByteString Chesscoin.Lib.Text Chesscoin.Domain Chesscoin.Simulator
  Chesscoin.Validation Chesscoin.ForkChoice Chesscoin.Wire Chesscoin.Config Chesscoin.Runtime
  Chesscoin.Locator Chesscoin.Serving Chesscoin.Sync

variable {hasher : HashPort} {sampler : SamplingPort} {addr : AddrText}

/-! ### Lines -/

lemma readBytes_line {maxMessageBytes length : ℕ} {fails : Bool} {bytes rest : Bytes}
    (h : (10 : UInt8) ∉ bytes) (hlen : length + bytes.length < maxMessageBytes) :
    readBytes maxMessageBytes fails length (bytes ++ 10 :: rest) = .ok (bytes ++ [10], rest) := by
  induction bytes generalizing length with
  | nil =>
    rw [List.length_nil] at hlen
    rw [List.nil_append, readBytes, if_neg (by omega), if_pos rfl]
    rfl
  | cons b bytes ih =>
    rw [List.length_cons] at hlen
    have hb : b ≠ 10 := fun hb => h (by simp [hb])
    have hlen' : length + 1 + bytes.length < maxMessageBytes := by omega
    have hrest := ih (fun hmem => h (List.mem_cons_of_mem b hmem)) hlen'
    rw [List.cons_append, readBytes, if_neg (by omega), if_neg hb, hrest]
    rfl

lemma utf8_line (line : Str) : utf8 (line ++ ['\n']) = utf8 line ++ [10] := by
  rw [utf8_append]
  rfl

lemma readLimitedLineFrom_line {maxMessageBytes : ℕ} {fails : Bool} {line : Str} {rest : Bytes}
    (h : '\n' ∉ line) (hlen : (utf8 (line ++ ['\n'])).length ≤ maxMessageBytes) :
    readLimitedLineFrom maxMessageBytes ⟨utf8 (line ++ ['\n']) ++ rest, fails⟩ =
      .ok (some (line ++ ['\n']), ⟨rest, fails⟩) := by
  rw [utf8_line, List.length_append, List.length_singleton] at hlen
  have hread : readBytes maxMessageBytes fails 0 (utf8 line ++ 10 :: rest) =
      .ok (utf8 line ++ [10], rest) := readBytes_line (newline_notMem_utf8 h) (by omega)
  have hbytes : utf8 (line ++ ['\n']) ++ rest = utf8 line ++ 10 :: rest := by
    rw [utf8_line, List.append_assoc]
    rfl
  rw [readLimitedLineFrom, hbytes, hread, ← utf8_line]
  obtain ⟨b, bytes, hcons⟩ : ∃ b bytes, utf8 (line ++ ['\n']) = b :: bytes :=
    List.exists_cons_of_ne_nil (by simp [utf8_line])
  have htext := fromUtf8_utf8 (line ++ ['\n'])
  rw [hcons] at htext ⊢
  simp only [htext]

/-! ### Delivery -/

/-- The message, written by one node, is read as it was by the other. -/
structure Delivered (addr : AddrText) (source target : NetworkConfig) (message : PeerMessage) :
    Prop where
  oneLine : '\n' ∉ encodeNetworkMessage addr source.wire message
  fits : (writePeerMessage addr source.wire message).length ≤ target.maxMessageBytes
  read : decodeNetworkMessage addr (encodeNetworkMessage addr source.wire message ++ ['\n'])
    target.wire = .ok message

variable {source target : NetworkConfig} {message : PeerMessage}

lemma Delivered.readLine (h : Delivered addr source target message) (rest : Bytes)
    (fails : Bool) :
    readLimitedLineFrom target.maxMessageBytes
        ⟨writePeerMessage addr source.wire message ++ rest, fails⟩ =
      .ok (some (encodeNetworkMessage addr source.wire message ++ ['\n']), ⟨rest, fails⟩) :=
  readLimitedLineFrom_line h.oneLine h.fits

lemma one_le_writePeerMessage (wire : WireConfig) (message : PeerMessage) :
    1 ≤ (writePeerMessage addr wire message).length := by
  rw [writePeerMessage, utf8_line, List.length_append]
  exact Nat.le_add_left 1 _

lemma length_le_written (wire : WireConfig) (messages : List PeerMessage) :
    messages.length ≤ (messages.flatMap (writePeerMessage addr wire)).length := by
  induction messages with
  | nil => exact le_rfl
  | cons message messages ih =>
    have hone : 1 ≤ (writePeerMessage addr wire message).length :=
      one_le_writePeerMessage wire message
    rw [List.flatMap_cons, List.length_append, List.length_cons]
    omega

/-- Messages written one after the other are read one after the other. -/
lemma lines_written {messages : List PeerMessage}
    (h : ∀ m ∈ messages, Delivered addr source target m) :
    Stream.lines target.maxMessageBytes
        ⟨messages.flatMap (writePeerMessage addr source.wire), false⟩ =
      messages.map fun m => .ok (encodeNetworkMessage addr source.wire m ++ ['\n']) := by
  have hfuel : ∀ fuel, messages.length < fuel →
      readLines target.maxMessageBytes fuel
          ⟨messages.flatMap (writePeerMessage addr source.wire), false⟩ =
        messages.map fun m => .ok (encodeNetworkMessage addr source.wire m ++ ['\n']) := by
    induction messages with
    | nil =>
      intro fuel hfuel
      obtain ⟨fuel, rfl⟩ := Nat.exists_eq_succ_of_ne_zero (Nat.ne_of_gt hfuel)
      rfl
    | cons m messages ih =>
      intro fuel hfuel
      obtain ⟨fuel, rfl⟩ := Nat.exists_eq_succ_of_ne_zero (Nat.ne_of_gt (Nat.zero_lt_of_lt hfuel))
      rw [List.length_cons] at hfuel
      have hline := (h m (by simp)).readLine
        (messages.flatMap (writePeerMessage addr source.wire)) false
      rw [List.flatMap_cons, List.map_cons, readLines, hline]
      exact congrArg _ (ih (fun m hm => h m (by simp [hm])) fuel (by omega))
  exact hfuel _ (Nat.lt_succ_of_le (length_le_written _ _))

/-! ### Requests -/

variable {st p : NodeState}

lemma answerOf_delivered (h : Delivered addr source p.network message) :
    answerOf hasher sampler addr p (encodeNetworkMessage addr source.wire message ++ ['\n']) =
      ⟨(handleMessage hasher sampler message true p).responses.flatMap
        (writePeerMessage addr p.network.wire), false⟩ := by
  have hline := h.readLine [] false
  rw [List.append_nil, writePeerMessage] at hline
  simp only [answerOf, handleStream, hline, h.read]

lemma ask_honestPeer {request response : PeerMessage}
    (hrequest : Delivered addr st.network p.network request)
    (hresponse : Delivered addr p.network st.network response)
    (hanswer : (handleMessage hasher sampler request true p).responses = [response]) :
    ask addr (honestPeer hasher sampler addr p) request st = .ok response := by
  have hline := hresponse.readLine [] false
  rw [ask, honestPeer, answerOf_delivered hrequest, hanswer, List.flatMap_cons, List.flatMap_nil]
  simp only [hline, hresponse.read]

/-- The blocks a node has for a locator. -/
def served (hasher : HashPort) (p : NodeState) (locator : List Digest) (limit : ℕ) :
    List Block :=
  blocksAfterLocator hasher p.chain locator (min limit p.sync.maxBlocksPerResponse)

lemma served_eq (locator : List Digest) (limit : ℕ) : ∃ s n, n ≤ limit ∧
    served hasher p locator limit = (p.chain.blocks.drop s).take n :=
  ⟨_, _, min_le_left _ _, rfl⟩

/-- Asking for as many blocks as were served serves the same again. -/
lemma served_length (locator : List Digest) (limit : ℕ) :
    served hasher p locator (served hasher p locator limit).length =
      served hasher p locator limit := by
  unfold served blocksAfterLocator
  simp only
  rw [List.length_take, List.take_eq_take_iff, List.length_drop]
  omega

/-- What holds of each message that a sync of `st` with `p` may send, from the one network to the
other. -/
structure Traffic (P : NetworkConfig → NetworkConfig → PeerMessage → Prop) (st p : NodeState) :
    Prop where
  headersRequest : ∀ locator limit, locator.length ≤ st.sync.maxLocatorHashes →
    limit ≤ st.sync.maxBlocksPerResponse →
    P st.network p.network (.getHeaders locator (UInt64.ofNat limit))
  blocksRequest : ∀ locator limit, locator.length ≤ st.sync.maxLocatorHashes →
    limit ≤ st.sync.maxBlocksPerResponse →
    P st.network p.network (.getBlocksByLocator locator (UInt64.ofNat limit))
  headers : ∀ s n, n ≤ st.sync.maxBlocksPerResponse →
    P p.network st.network (.headers (((p.chain.blocks.drop s).take n).map (·.header)))
  blocks : ∀ b ∈ p.chain.blocks, P p.network st.network (.block b)
  endBlocks : P p.network st.network .endBlocks

/-- The messages of a sync of `st` with `p` get through. -/
abbrev Undisturbed (addr : AddrText) (st p : NodeState) : Prop := Traffic (Delivered addr) st p

/-- The limit of a request is a machine number, and the locators of `st` are short enough for
`p`. -/
structure WithinLimits (st p : NodeState) : Prop where
  usize : st.sync.maxBlocksPerResponse < 2 ^ 64
  locator : st.sync.maxLocatorHashes ≤ p.sync.maxLocatorHashes

variable {locator : List Digest} {limit : ℕ}

lemma responseLimit_ofNat (h : limit < 2 ^ 64) :
    responseLimit (UInt64.ofNat limit) p = min limit p.sync.maxBlocksPerResponse := by
  rw [responseLimit, UInt64.toNat_ofNat', Nat.mod_eq_of_lt h]

lemma headersFromPeer_honest (h : Undisturbed addr st p) (hw : WithinLimits st p)
    (hloc : locator.length ≤ st.sync.maxLocatorHashes)
    (hlimit : limit ≤ st.sync.maxBlocksPerResponse) :
    headersFromPeer addr (honestPeer hasher sampler addr p) locator limit st =
      .ok ((served hasher p locator limit).map (·.header)) := by
  obtain ⟨s, n, hn, hserved⟩ : ∃ s n, n ≤ limit ∧
      served hasher p locator limit = (p.chain.blocks.drop s).take n := served_eq locator limit
  have hanswer : (handleMessage hasher sampler (.getHeaders locator (UInt64.ofNat limit)) true
      p).responses = [.headers ((served hasher p locator limit).map (·.header))] := by
    have hlong : ¬ p.sync.maxLocatorHashes < locator.length := by
      have := hw.locator
      omega
    have husize := hw.usize
    simp only [handleMessage, respondWithin, hlong, if_false, respond, serveHeaders,
      responseLimit_ofNat (p := p) (lt_of_le_of_lt hlimit husize)]
    rfl
  have hheaders := h.headers s n (hn.trans hlimit)
  rw [← hserved] at hheaders
  have hask := ask_honestPeer (h.headersRequest locator limit hloc hlimit) hheaders hanswer
  have hlen : ((served hasher p locator limit).map (·.header)).length ≤ limit := by
    rw [List.length_map, hserved, List.length_take]
    omega
  rw [headersFromPeer, hask]
  exact if_pos hlen

/-- The blocks of an answer, read one after the other, are the blocks that were asked for. -/
lemma receiveBlocks_delivered {expected : List Digest} {received blocks : List Block}
    (hblocks : ∀ b ∈ blocks, Delivered addr source target (.block b))
    (hend : Delivered addr source target .endBlocks)
    (hexpected : (received ++ blocks).map (blockHash hasher) = expected) :
    receiveBlocks hasher addr target.wire expected received
        ((blockMessages blocks).map fun m => .ok (encodeNetworkMessage addr source.wire m ++
          ['\n'])) = .complete (received ++ blocks) := by
  induction blocks generalizing received with
  | nil =>
    have hlen : received.length = expected.length := by
      rw [← hexpected, List.append_nil, List.length_map]
    rw [List.append_nil]
    simp only [blockMessages, List.map_nil, List.nil_append, List.map_cons, receiveBlocks,
      hend.read, hlen, if_true]
  | cons b blocks ih =>
    have hget : expected[received.length]? = some (blockHash hasher b) := by
      rw [← hexpected, List.getElem?_map, List.getElem?_append_right le_rfl, Nat.sub_self]
      rfl
    have hsame : ¬ blockHash hasher b ≠ blockHash hasher b := not_not.mpr rfl
    have hmove : (received ++ [b]) ++ blocks = received ++ b :: blocks := by simp
    have hrest := ih (fun b hb => hblocks b (by simp [hb])) (by rw [hmove, hexpected])
    rw [hmove] at hrest
    have hb := (hblocks b (by simp)).read
    simp only [blockMessages, List.map_cons, List.cons_append, receiveBlocks, hb, hget, hsame,
      if_false]
    exact hrest

lemma blocksFromPeer_honest (h : Undisturbed addr st p) (hw : WithinLimits st p)
    (hloc : locator.length ≤ st.sync.maxLocatorHashes)
    (hlimit : limit ≤ st.sync.maxBlocksPerResponse) :
    blocksFromPeer hasher sampler addr (honestPeer hasher sampler addr p) locator
        ((served hasher p locator limit).map (blockHash hasher)) st =
      settleAnswer hasher sampler (.complete (served hasher p locator limit)) st := by
  obtain ⟨s, n, hn, hserved⟩ : ∃ s n, n ≤ limit ∧
      served hasher p locator limit = (p.chain.blocks.drop s).take n := served_eq locator limit
  have hlen : ((served hasher p locator limit).map (blockHash hasher)).length ≤
      st.sync.maxBlocksPerResponse := by
    rw [List.length_map, hserved, List.length_take]
    omega
  have husize : ((served hasher p locator limit).map (blockHash hasher)).length < 2 ^ 64 :=
    lt_of_le_of_lt hlen hw.usize
  have hanswer : (handleMessage hasher sampler (.getBlocksByLocator locator
      (UInt64.ofNat ((served hasher p locator limit).map (blockHash hasher)).length)) true
      p).responses = blockMessages (served hasher p locator limit) := by
    have hlong : ¬ p.sync.maxLocatorHashes < locator.length := by
      have := hw.locator
      omega
    simp only [handleMessage, respondWithin, hlong, if_false, respond, serveBlocksByLocator,
      responseLimit_ofNat (p := p) husize]
    rw [List.length_map]
    exact congrArg blockMessages (served_length locator limit)
  have hmem : ∀ b ∈ served hasher p locator limit, b ∈ p.chain.blocks := by
    intro b hb
    rw [hserved] at hb
    exact List.mem_of_mem_drop (List.mem_of_mem_take hb)
  have hdelivered : ∀ m ∈ blockMessages (served hasher p locator limit),
      Delivered addr p.network st.network m := by
    intro m hm
    rcases List.mem_append.mp hm with hm | hm
    · obtain ⟨b, hb, rfl⟩ := List.mem_map.mp hm
      exact h.blocks b (hmem b hb)
    · rw [List.mem_singleton.mp hm]
      exact h.endBlocks
  have hexpected : ([] ++ served hasher p locator limit).map (blockHash hasher) =
      (served hasher p locator limit).map (blockHash hasher) := rfl
  have hreceived := receiveBlocks_delivered (fun b hb => h.blocks b (hmem b hb)) h.endBlocks
    hexpected
  unfold blocksFromPeer
  simp only [honestPeer, answerOf_delivered (h.blocksRequest locator _ hloc hlen), hanswer,
    lines_written hdelivered, hreceived, List.nil_append]

lemma headers_hashes (blocks : List Block) :
    (blocks.map (·.header)).map (blockHeaderHash hasher) = blocks.map (blockHash hasher) := by
  rw [List.map_map]
  rfl

/-- A sync in which nothing is lost screens what the peer has after the locator. -/
lemma syncFromPeer_refused (h : Undisturbed addr st p) (hw : WithinLimits st p)
    (hloc : locator.length ≤ st.sync.maxLocatorHashes)
    (hlimit : limit ≤ st.sync.maxBlocksPerResponse)
    (hscreen : validateHeadersAfterLocator hasher st.chain locator
      ((served hasher p locator limit).map (·.header)) = .error ()) :
    syncFromPeer hasher sampler addr (honestPeer hasher sampler addr p) locator limit st =
      (.error (), st) := by
  simp only [syncFromPeer, headersFromPeer_honest h hw hloc hlimit, hscreen]

/-- What has passed is taken in when there is a new block among it. -/
lemma syncFromPeer_screened (h : Undisturbed addr st p) (hw : WithinLimits st p)
    (hloc : locator.length ≤ st.sync.maxLocatorHashes)
    (hlimit : limit ≤ st.sync.maxBlocksPerResponse)
    (hscreen : validateHeadersAfterLocator hasher st.chain locator
      ((served hasher p locator limit).map (·.header)) = .ok ()) :
    syncFromPeer hasher sampler addr (honestPeer hasher sampler addr p) locator limit st =
      if ((served hasher p locator limit).map (blockHash hasher)).any
          fun hash => !st.forkChoice.containsBlock hash then
        settleAnswer hasher sampler (.complete (served hasher p locator limit)) st
      else (.ok (), st) := by
  simp only [syncFromPeer, headersFromPeer_honest h hw hloc hlimit, hscreen, headers_hashes,
    blocksFromPeer_honest h hw hloc hlimit]

end Chesscoin.Exchange

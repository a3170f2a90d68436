import Chesscoin.Turns

/-!
How much a node reads.

A line is given up when it is longer than a message may be, a connection that is accepted is read
for one line, and an answer for one line more than blocks are expected. So a peer has no more than a
fixed number of bytes, known in advance, to make itself heard: what it sends after them makes no
difference to anything the node does.
-/

namespace Chesscoin.BoundedReading

open Chesscoin.Lib.Text Chesscoin.Lib.ByteString Chesscoin.Domain Chesscoin.Simulator
  Chesscoin.Validation Chesscoin.ForkChoice Chesscoin.Wire Chesscoin.Config Chesscoin.Runtime
  Chesscoin.Runs Chesscoin.Locator Chesscoin.Screening Chesscoin.Serving Chesscoin.Sync
  Chesscoin.Rounds Chesscoin.Passes Chesscoin.PeerSet Chesscoin.Turns Chesscoin.Adapters

variable {hasher : HashPort} {sampler : SamplingPort} {addr : AddrText} {st : NodeState}
  {s s' : Stream} {maxMessageBytes n m : ℕ}

/-! ### Streams that start alike -/

/-- Two streams have the same first bytes, and if they end before, they end in the same way. -/
def SameStart (n : ℕ) (s s' : Stream) : Prop :=
  s.bytes.take n = s'.bytes.take n ∧ (s.bytes.length < n → s'.fails = s.fails)

lemma SameStart.mono (h : SameStart n s s') (hle : m ≤ n) : SameStart m s s' := by
  refine ⟨?_, fun hshort => h.2 (by omega)⟩
  have htake := congrArg (List.take m) h.1
  rwa [List.take_take, List.take_take, min_eq_left hle] at htake

/-- **One line.** Both are given up, or both are read and what follows starts alike. -/
lemma readBytes_same {fails fails' : Bool} {length : ℕ} {bytes bytes' : Bytes}
    (hlength : length ≤ maxMessageBytes) (hn : maxMessageBytes < length + n)
    (hstart : bytes.take n = bytes'.take n) (hfails : bytes.length < n → fails' = fails) :
    (∃ e, readBytes maxMessageBytes fails length bytes = .error e ∧
        readBytes maxMessageBytes fails' length bytes' = .error e) ∨
      ∃ line rest rest', readBytes maxMessageBytes fails length bytes = .ok (line, rest) ∧
        readBytes maxMessageBytes fails' length bytes' = .ok (line, rest') ∧
        bytes = line ++ rest ∧ bytes' = line ++ rest' ∧ length + line.length ≤ maxMessageBytes := by
  obtain ⟨n, rfl⟩ : ∃ k, n = k + 1 := ⟨n - 1, by omega⟩
  induction bytes generalizing length n bytes' with
  | nil =>
    have hnil : bytes' = [] := by
      cases bytes' with
      | nil => rfl
      | cons b rest => simp at hstart
    subst hnil
    rw [hfails (Nat.succ_pos n)]
    cases fails with
    | true => exact .inl ⟨.io, rfl, rfl⟩
    | false => exact .inr ⟨[], [], [], rfl, rfl, rfl, rfl, by simpa using hlength⟩
  | cons byte rest ih =>
    obtain ⟨rest', rfl, hrest⟩ : ∃ rest', bytes' = byte :: rest' ∧ rest.take n = rest'.take n := by
      cases bytes' with
      | nil => simp at hstart
      | cons b rest' =>
        rw [List.take_succ_cons, List.take_succ_cons, List.cons.injEq] at hstart
        exact ⟨rest', by rw [hstart.1], hstart.2⟩
    rw [readBytes, readBytes]
    by_cases hlong : maxMessageBytes < length + 1
    · rw [if_pos hlong, if_pos hlong]
      exact .inl ⟨.oversized, rfl, rfl⟩
    · rw [if_neg hlong, if_neg hlong]
      by_cases hend : byte = 10
      · rw [if_pos hend, if_pos hend]
        exact .inr ⟨[byte], rest, rest', rfl, rfl, rfl, rfl, by simpa using not_lt.mp hlong⟩
      · rw [if_neg hend, if_neg hend]
        obtain ⟨k, rfl⟩ : ∃ k, n = k + 1 := ⟨n - 1, by omega⟩
        have hroom : length + 1 ≤ maxMessageBytes := by omega
        rcases ih hroom k (by omega) hrest
            (fun hshort => hfails (by simpa using hshort)) with
          ⟨e, he, he'⟩ | ⟨line, after, after', hread, hread', hbytes, hbytes', hfits⟩
        · rw [he, he']
          exact .inl ⟨e, rfl, rfl⟩
        · rw [hread, hread', hbytes, hbytes']
          refine .inr ⟨byte :: line, after, after', rfl, rfl, rfl, rfl, ?_⟩
          rw [List.length_cons]
          omega

/-- **A line of a message**: both calls fail alike, both are at the end, or both have the line. -/
theorem readLimitedLineFrom_same (h : SameStart n s s') (hn : maxMessageBytes < n) :
    (∃ e, readLimitedLineFrom maxMessageBytes s = .error e ∧
        readLimitedLineFrom maxMessageBytes s' = .error e) ∨
      (∃ t t', readLimitedLineFrom maxMessageBytes s = .ok (none, t) ∧
        readLimitedLineFrom maxMessageBytes s' = .ok (none, t')) ∨
      ∃ line t t', readLimitedLineFrom maxMessageBytes s = .ok (some line, t) ∧
        readLimitedLineFrom maxMessageBytes s' = .ok (some line, t') ∧
        SameStart (n - maxMessageBytes) t t' ∧ t.bytes.length < s.bytes.length ∧
        t'.bytes.length < s'.bytes.length := by
  obtain ⟨bytes, fails⟩ := s
  obtain ⟨bytes', fails'⟩ := s'
  obtain ⟨hstart, hfails⟩ := h
  simp only at hstart hfails
  rw [readLimitedLineFrom, readLimitedLineFrom]
  rcases readBytes_same (Nat.zero_le maxMessageBytes) (by omega) hstart hfails with
    ⟨e, he, he'⟩ | ⟨line, rest, rest', hread, hread', rfl, rfl, hfits⟩
  · simp only [he, he']
    exact .inl ⟨e, rfl, rfl⟩
  · simp only [hread, hread']
    cases line with
    | nil => exact .inr (.inl ⟨_, _, rfl, rfl⟩)
    | cons byte line =>
      cases hutf : fromUtf8 (byte :: line) with
      | none => exact .inl ⟨.io, by simp only [hutf], by simp only [hutf]⟩
      | some text =>
        refine .inr (.inr ⟨text, ⟨rest, fails⟩, ⟨rest', fails'⟩, by simp only [hutf],
          by simp only [hutf], ⟨?_, fun hshort => hfails ?_⟩, ?_, ?_⟩)
        · -- the line is taken off both, and it is no longer than a message
          have hdrop := congrArg (List.drop (byte :: line).length) hstart
          rw [List.drop_take, List.drop_take, List.drop_left, List.drop_left] at hdrop
          have htake := congrArg (List.take (n - maxMessageBytes)) hdrop
          rwa [List.take_take, List.take_take, min_eq_left (by omega)] at htake
        · rw [List.length_append]
          have hrest : rest.length < n - maxMessageBytes := hshort
          omega
        · simp only [List.length_append, List.length_cons]
          omega
        · simp only [List.length_append, List.length_cons]
          omega

/-- **Many lines.** -/
lemma readLines_same {fuel fuel' : ℕ} (lines : ℕ) (h : SameStart n s s')
    (hn : lines * maxMessageBytes < n) (hfuel : s.bytes.length < fuel)
    (hfuel' : s'.bytes.length < fuel') :
    (readLines maxMessageBytes fuel s).take lines =
      (readLines maxMessageBytes fuel' s').take lines := by
  induction lines generalizing n s s' fuel fuel' with
  | zero => rfl
  | succ lines ih =>
    obtain ⟨fuel, rfl⟩ : ∃ k, fuel = k + 1 := ⟨fuel - 1, by omega⟩
    obtain ⟨fuel', rfl⟩ : ∃ k, fuel' = k + 1 := ⟨fuel' - 1, by omega⟩
    rw [Nat.succ_mul] at hn
    have hone : maxMessageBytes < n := by omega
    rw [readLines, readLines]
    rcases readLimitedLineFrom_same h hone with
      ⟨e, he, he'⟩ | ⟨t, t', ht, ht'⟩ | ⟨line, t, t', ht, ht', hrest, hless, hless'⟩
    · rw [he, he']
    · rw [ht, ht']
    · rw [ht, ht']
      have hlines : (readLines maxMessageBytes fuel t).take lines =
          (readLines maxMessageBytes fuel' t').take lines :=
        ih hrest (by omega) (by omega) (by omega)
      simp only [List.take_succ_cons, hlines]

/-! ### Answers -/

variable (hasher addr) in
/-- No more lines are looked at than there are blocks to come, and one. -/
lemma receiveBlocks_take (wire : WireConfig) {expected : List Digest} (received : List Block)
    (hle : received.length ≤ expected.length) (ls : List (Except IncomingReadError Str)) :
    receiveBlocks hasher addr wire expected received
        (ls.take (expected.length - received.length + 1)) =
      receiveBlocks hasher addr wire expected received ls := by
  induction ls generalizing received with
  | nil => rfl
  | cons l ls ih =>
    rw [List.take_succ_cons]
    cases l with
    | error e => cases e <;> rfl
    | ok line =>
      simp only [receiveBlocks]
      split
      · rfl
      · split
        · rfl
        · next hash hget =>
          obtain ⟨hlt, -⟩ := List.getElem?_eq_some_iff.mp hget
          split
          · rfl
          · next block _ _ _ =>
            have hlen : (received ++ [block]).length = received.length + 1 := by simp
            have hnext := ih (received ++ [block]) (by omega)
            rwa [hlen, show expected.length - (received.length + 1) + 1 =
              expected.length - received.length by omega] at hnext
      · rfl
      · rfl

/-- Whatever is asked, both peers refuse, or both answer with streams that start alike. -/
def SameAnswers (n : ℕ) (peer peer' : Str → Option Stream) : Prop :=
  ∀ request, Option.Rel (SameStart n) (peer request) (peer' request)

variable {peer peer' : Str → Option Stream}

lemma SameAnswers.mono (h : SameAnswers n peer peer') (hle : m ≤ n) :
    SameAnswers m peer peer' := by
  intro request
  have hsame := h request
  generalize peer request = answer at hsame ⊢
  generalize peer' request = answer' at hsame ⊢
  cases hsame with
  | none => exact .none
  | some hstart => exact .some (hstart.mono hle)

lemma ask_same (h : SameAnswers n peer peer') (hn : st.network.maxMessageBytes < n)
    (message : PeerMessage) : ask addr peer message st = ask addr peer' message st := by
  unfold ask
  generalize encodeNetworkMessage addr st.network.wire message ++ ['\n'] = request
  have hsame := h request
  generalize peer request = answer at hsame ⊢
  generalize peer' request = answer' at hsame ⊢
  cases hsame with
  | none => rfl
  | some hstart =>
    simp only
    rcases readLimitedLineFrom_same hstart hn with
      ⟨e, he, he'⟩ | ⟨t, t', ht, ht'⟩ | ⟨line, t, t', ht, ht', -⟩
    · rw [he, he']
    · rw [ht, ht']
    · rw [ht, ht']

lemma blocksFromPeer_same (h : SameAnswers n peer peer') (locator expected : List Digest)
    (hn : (expected.length + 1) * st.network.maxMessageBytes < n) :
    blocksFromPeer hasher sampler addr peer locator expected st =
      blocksFromPeer hasher sampler addr peer' locator expected st := by
  unfold blocksFromPeer
  simp only
  generalize encodeNetworkMessage addr st.network.wire
    (.getBlocksByLocator locator (UInt64.ofNat expected.length)) ++ ['\n'] = request
  have hsame := h request
  generalize peer request = answer at hsame ⊢
  generalize peer' request = answer' at hsame ⊢
  cases hsame with
  | none => rfl
  | @some s s' hstart =>
    simp only
    have hlines := readLines_same (expected.length + 1) hstart hn (Nat.lt_succ_self s.bytes.length)
      (Nat.lt_succ_self s'.bytes.length)
    have htake := receiveBlocks_take hasher addr st.network.wire [] (Nat.zero_le expected.length)
    simp only [List.length_nil, Nat.sub_zero] at htake
    rw [Stream.lines, Stream.lines, ← htake, hlines, htake]

/-! ### Calls -/

lemma syncFromPeer_same (h : SameAnswers n peer peer') (locator : List Digest) {limit : ℕ}
    (hn : (limit + 1) * st.network.maxMessageBytes < n) :
    syncFromPeer hasher sampler addr peer locator limit st =
      syncFromPeer hasher sampler addr peer' locator limit st := by
  have hone : st.network.maxMessageBytes < n := by
    rw [Nat.succ_mul] at hn
    omega
  have hheaders : headersFromPeer addr peer locator limit st =
      headersFromPeer addr peer' locator limit st := by
    rw [headersFromPeer, headersFromPeer, ask_same h hone]
  rw [syncFromPeer, syncFromPeer, hheaders]
  split
  · rfl
  · next headers hgot =>
    have hfew : headers.length ≤ limit := by
      unfold headersFromPeer at hgot
      split at hgot
      · split at hgot
        · next hle =>
          cases hgot
          exact hle
        · cases hgot
      · cases hgot
    have hblocks : blocksFromPeer hasher sampler addr peer locator
        (headers.map (blockHeaderHash hasher)) st = blocksFromPeer hasher sampler addr peer' locator
        (headers.map (blockHeaderHash hasher)) st := by
      refine blocksFromPeer_same h locator _ (lt_of_le_of_lt ?_ hn)
      rw [List.length_map]
      exact Nat.mul_le_mul_right _ (Nat.succ_le_succ hfew)
    simp only [hblocks]

lemma exchangePeersWith_same (h : SameAnswers n peer peer') (hn : st.network.maxMessageBytes < n)
    (limit : ℕ) :
    exchangePeersWith addr peer limit st = exchangePeersWith addr peer' limit st := by
  rw [exchangePeersWith, exchangePeersWith, peersFromPeer, peersFromPeer, ask_same h hn]

/-! ### A pass -/

variable {net net' : SocketAddr → Str → Option Stream}

lemma exchangeAll_same (h : ∀ address, SameAnswers n (net address) (net' address)) (limit : ℕ)
    (peers : List SocketAddr) (hn : st.network.maxMessageBytes < n) :
    exchangeAll addr net limit peers st = exchangeAll addr net' limit peers st := by
  induction peers generalizing st with
  | nil => rfl
  | cons peer rest ih =>
    have hone : Untouched st (exchangePeersWith addr (net' peer) limit st).2 :=
      exchangePeersWith_untouched (net' peer) limit st
    have hboth := hone.trans (countSync_untouched
      (exchangePeersWith addr (net' peer) limit st).1 _)
    have hnetwork := congrArg Prod.fst hboth.settings
    rw [exchangeAll, exchangeAll, exchangePeersWith_same (h peer) hn limit]
    exact ih (lt_of_eq_of_lt (congrArg NetworkConfig.maxMessageBytes hnetwork) hn)

lemma syncAll_same (h : ∀ address, SameAnswers n (net address) (net' address))
    (locator : List Digest) (limit : ℕ) (peers : List SocketAddr)
    (hn : (limit + 1) * st.network.maxMessageBytes < n) :
    syncAll hasher sampler addr net locator limit peers st =
      syncAll hasher sampler addr net' locator limit peers st := by
  induction peers generalizing st with
  | nil => rfl
  | cons peer rest ih =>
    have hone : Admits st [] (syncFromPeer hasher sampler addr (net' peer) locator limit st).2 :=
      syncFromPeer_admits (net' peer) locator limit st
    have hboth := hone.trans (countSync_admits
      (syncFromPeer hasher sampler addr (net' peer) locator limit st).1 _)
    have hnetwork : (countSync (syncFromPeer hasher sampler addr (net' peer) locator limit st).1
        (syncFromPeer hasher sampler addr (net' peer) locator limit st).2).network = st.network :=
      congrArg (fun who => who.2.2) hboth.identity
    rw [syncAll, syncAll, syncFromPeer_same (h peer) locator hn]
    simp only
    rw [ih (by rw [hnetwork]; exact hn)]

/-- **A peer is heard for so long and no longer.** What a node does with an inbound connection
depends only on as many bytes as a message may have and one more; what it does in a pass, the
results of its calls included, depends of each answer only on as many bytes as there may be in a
message for every block it asks for and one more, and one byte more. -/
theorem reading_is_bounded (hasher : HashPort) (sampler : SamplingPort) (addr : AddrText)
    (st : NodeState) :
    (∀ s s' written, SameStart (st.network.maxMessageBytes + 1) s s' →
      handleStream hasher sampler addr s written st =
        handleStream hasher sampler addr s' written st) ∧
    ∀ net net', (∀ address, SameAnswers
        ((st.sync.maxBlocksPerResponse + 1) * st.network.maxMessageBytes + 1)
          (net address) (net' address)) →
      syncOnce hasher sampler addr net st = syncOnce hasher sampler addr net' st := by
  refine ⟨fun s s' written h => ?_, fun net net' h => ?_⟩
  · rw [handleStream, handleStream]
    rcases readLimitedLineFrom_same h (Nat.lt_succ_self _) with
      ⟨e, he, he'⟩ | ⟨t, t', ht, ht'⟩ | ⟨line, t, t', ht, ht', -⟩
    · rw [he, he']
    · rw [ht, ht']
    · rw [ht, ht']
  · have hone : st.network.maxMessageBytes <
        (st.sync.maxBlocksPerResponse + 1) * st.network.maxMessageBytes + 1 := by
      rw [Nat.succ_mul]
      omega
    have hsame : Untouched st (exchangeAll addr net' st.network.maxPeers st.peers st) :=
      exchangeAll_untouched net' _ _ st
    have hnetwork : (exchangeAll addr net' st.network.maxPeers st.peers st).network = st.network :=
      congrArg Prod.fst hsame.settings
    unfold syncOnce
    simp only
    split
    · rfl
    · rw [exchangeAll_same h _ _ hone]
      exact syncAll_same h _ _ _ (by rw [hnetwork]; exact Nat.lt_succ_self _)

/-! A terabyte of garbage is as good as the start of it, on a line of its own or after the answers
of an honest peer. -/

def garbage (length : ℕ) : Stream := ⟨List.replicate length 65, true⟩

/-- A peer that goes on after it has answered. -/
def babbler (length : ℕ) (_ : SocketAddr) (request : Str) : Option Stream :=
  (honestPeer toyHash deterministicSampler noAddr (rivalRun 1).2 request).map
    fun answer => ⟨answer.bytes ++ List.replicate length 65, true⟩

def babbled : NodeState := { rivalStart with peers := [.v4 0x7f000001 9333] }

lemma babbler_same {length length' : ℕ} (h : n ≤ length) (h' : n ≤ length')
    (address : SocketAddr) :
    SameAnswers n (babbler length address) (babbler length' address) := by
  intro request
  rw [babbler, babbler]
  cases honestPeer toyHash deterministicSampler noAddr (rivalRun 1).2 request with
  | none => exact .none
  | some answer =>
    refine .some ⟨?_, fun _ => rfl⟩
    simp only [List.take_append, List.take_replicate]
    rw [min_eq_left (by omega), min_eq_left (by omega)]

theorem reading_is_bounded_garbage :
    handleStream toyHash deterministicSampler noAddr (garbage (2 ^ 40)) true babbled =
        handleStream toyHash deterministicSampler noAddr (garbage (2 ^ 20 + 1)) true babbled ∧
      syncOnce toyHash deterministicSampler noAddr (babbler (2 ^ 40)) babbled =
        syncOnce toyHash deterministicSampler noAddr (babbler (129 * 2 ^ 20 + 1)) babbled := by
  obtain ⟨hinbound, hpass⟩ := reading_is_bounded toyHash deterministicSampler noAddr babbled
  have hlimit : babbled.network.maxMessageBytes = 2 ^ 20 := rfl
  have hblocks : babbled.sync.maxBlocksPerResponse = 128 := rfl
  rw [hlimit] at hinbound hpass
  rw [hblocks] at hpass
  refine ⟨hinbound _ _ true ⟨?_, fun _ => rfl⟩, hpass _ _ (babbler_same (by omega) (by omega))⟩
  rw [garbage, garbage, List.take_replicate, List.take_replicate]
  rfl

end Chesscoin.BoundedReading

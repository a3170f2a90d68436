import Chesscoin.CutLogs
import Chesscoin.HashBinding
import Chesscoin.NodeLog

/-!
The log of a running node, cut at any byte.

While appends succeed, the log is a header and the records of the blocks in the order in which
they came in. A cut leaves whole lines and a part of one. The part cannot be read: it has not
all the bars, or its payload has become shorter and the checksum is no longer that of the
payload. It is the last line and has no newline, so it is passed over. A record that has lost
its newline alone is read like any other.
-/

namespace Chesscoin.LogCuts

open Chesscoin.Lib.ByteString Chesscoin.Lib.Text Chesscoin.Domain Chesscoin.Simulator
  Chesscoin.Validation Chesscoin.ForkChoice Chesscoin.Wire Chesscoin.BlockCodec
  Chesscoin.Storage Chesscoin.Runtime Chesscoin.Runs Chesscoin.ActiveView Chesscoin.LogLines
  Chesscoin.LogReplay Chesscoin.CutLogs Chesscoin.NodeLog Chesscoin.Adapters
open ForkChoiceState

variable {hasher : HashPort} {sampler : SamplingPort} {addr : AddrText} {B : Block → Prop}
  {config : ChainConfig} {st st' : NodeState} {bs : List Block} {b : Block}

/-! ### The log of a run -/

def headerLine (hasher : HashPort) (config : ChainConfig) (withHeader : Bool) : Str :=
  if withHeader then encodeStorageHeader hasher config ++ ['\n'] else []

/-- The text of a node and the blocks that have been appended. The header is missing when the
size of the new file could not be read. -/
structure Appended (hasher : HashPort) (sampler : SamplingPort) (B : Block → Prop)
    (config : ChainConfig) (withHeader : Bool) (bs : List Block) (st : NodeState) : Prop where
  configured : Configured config st
  succeed : AllAppends Succeeds st
  log : logText st =
    some (headerLine hasher config withHeader ++ blockLines (encodeStorageRecord hasher) bs)
  accepted : Accepted hasher sampler (new config) bs st.forkChoice
  drawn : ∀ b ∈ bs, B b
  fresh : bs = [] → withHeader = false

lemma blockLines_snoc (encode : Block → Str) (bs : List Block) (b : Block) :
    blockLines encode (bs ++ [b]) = blockLines encode bs ++ (encode b ++ ['\n']) := by
  simp [blockLines]

lemma blockLines_isEmpty {encode : Block → Str} (hne : bs ≠ []) (before : Str) :
    (before ++ blockLines encode bs).isEmpty = false := by
  obtain ⟨b, bs, rfl⟩ := List.exists_cons_of_ne_nil hne
  simp [blockLines]

lemma Appended.move {withHeader : Bool}
    (h : Appended hasher sampler B config withHeader bs st)
    (hmove : Move hasher sampler B st st') :
    ∃ withHeader' bs', Appended hasher sampler B config withHeader' bs' st' := by
  have hconfig := Move.configured hmove h.configured
  obtain ⟨hio, ⟨-, hfc, hlog⟩ | ⟨block, io, hsucceeds, hB, -, hins, hlog⟩⟩ :=
    Move.log hmove ⟨rfl, rfl⟩ h.succeed h.configured h.log
  · exact ⟨withHeader, bs, hconfig, hio, hlog, hfc ▸ h.accepted, h.drawn, h.fresh⟩
  · have hdrawn : ∀ b ∈ bs ++ [block], B b := by
      intro b hb
      rcases List.mem_append.mp hb with hb | hb
      · exact h.drawn b hb
      · exact List.mem_singleton.mp hb ▸ hB
    rw [appendText_succeeds hsucceeds] at hlog
    by_cases hbs : bs = []
    · subst hbs
      obtain rfl := h.fresh rfl
      refine ⟨!io.metadataFails, [block], hconfig, hio, ?_, .snoc h.accepted hins, hdrawn,
        fun hnil => (nomatch hnil)⟩
      rw [hlog]
      simp [headerLine, blockLines, entryText]
    · refine ⟨withHeader, bs ++ [block], hconfig, hio, ?_, .snoc h.accepted hins, hdrawn,
        fun hnil => absurd hnil (by simp)⟩
      rw [hlog, blockLines_isEmpty hbs, Bool.and_false, blockLines_snoc, ← List.append_assoc]
      rfl

/-- **What a run writes** to a fresh log: the records of the blocks it takes in, in order. -/
theorem appended_run (hstart : LogStart hasher sampler addr B config [] st)
    (hsucceed : AllAppends Succeeds st)
    (hrun : Relation.ReflTransGen (Step hasher sampler B) st st') :
    ∃ withHeader bs, Appended hasher sampler B config withHeader bs st' := by
  refine run_keeps (P := fun st => ∃ withHeader bs,
    Appended hasher sampler B config withHeader bs st) ?_ hrun ?_
  · rintro st st' ⟨withHeader, bs, h⟩ hmove
    exact h.move hmove
  · obtain ⟨s, hload, hfc, -⟩ := (initialChains_ok_iff hstart.log).mp hstart.loaded
    have hempty : new config = st.forkChoice := by
      cases hload
      exact hfc
    refine ⟨false, [], hstart.configured, hsucceed, hstart.log, ?_, fun b hb => (nomatch hb),
      fun _ => rfl⟩
    rw [← hempty]
    exact .nil

/-! ### Parts of lines -/

/-- No proper prefix of the payload has its checksum. -/
def Separated (hasher : HashPort) (payload : Str) : Prop :=
  ∀ n < payload.length,
    storageRecordChecksum hasher (payload.take n) ≠ storageRecordChecksum hasher payload

lemma splitn_two {a b : Str} (ha : '|' ∉ a) (hb : '|' ∉ b) :
    splitn 3 '|' (a ++ '|' :: b) = [a, b] := by
  rw [splitn_append ha, splitn_of_notMem hb]

/-- A part of three fields: a part of the first, or of the second, or of the third. -/
lemma take_fields {a b c : Str} {n : ℕ} (hn : n < (a ++ '|' :: (b ++ '|' :: c)).length) :
    (∃ m, (a ++ '|' :: (b ++ '|' :: c)).take n = a.take m) ∨
      (∃ m, (a ++ '|' :: (b ++ '|' :: c)).take n = a ++ '|' :: b.take m) ∨
      ∃ m < c.length,
        (a ++ '|' :: (b ++ '|' :: c)).take n = a ++ '|' :: (b ++ '|' :: c.take m) := by
  rcases take_separated '|' a (b ++ '|' :: c) n with ⟨-, hfirst⟩ | ⟨m, rfl, hm⟩
  · exact .inl ⟨n, hfirst⟩
  · rw [hm]
    rcases take_separated '|' b c m with ⟨-, hk⟩ | ⟨k, rfl, hk⟩
    · exact .inr (.inl ⟨m, by rw [hk]⟩)
    · refine .inr (.inr ⟨k, ?_, by rw [hk]⟩)
      simp only [List.length_append, List.length_cons] at hn
      omega

/-- **A part of a header cannot be read.** -/
theorem decodeStorageLine_take_header {n : ℕ} (h : Separated hasher (chainFingerprint config))
    (hn : n < (encodeStorageHeader hasher config).length) :
    ∃ e, decodeStorageLine hasher addr ((encodeStorageHeader hasher config).take n) =
      .error e := by
  have hversion : ∀ rest : Str, storageHeaderVersion.isPrefixOf
      (storageHeaderVersion ++ rest) = true := fun rest =>
    List.isPrefixOf_iff_prefix.mpr (List.prefix_append _ rest)
  have hfirst : '|' ∉ storageHeaderVersion := by decide
  rw [encodeStorageHeader_eq] at hn ⊢
  rcases take_fields hn with ⟨m, hm⟩ | ⟨m, hm⟩ | ⟨m, hlt, hm⟩ <;> rw [hm]
  · cases hd : decodeStorageLine hasher addr (storageHeaderVersion.take m) with
    | error e => exact ⟨e, rfl⟩
    | ok decoded => exact absurd (bar_mem_of_decode hd) (notMem_take hfirst m)
  · rw [decodeStorageLine, if_pos (hversion _), decodeStorageHeader,
      splitn_two hfirst (notMem_take (bar_notMem_toHex _) m)]
    exact ⟨_, rfl⟩
  · rw [decodeStorageLine, if_pos (hversion _), decodeStorageHeader,
      splitn_three hfirst (bar_notMem_toHex _)]
    simp only [List.head?_cons, ne_eq, not_true_eq_false, if_false, Digest.fromHex_toHex]
    have hother := (h m hlt).symm
    simp [bind, Except.bind, Except.map, hother]

/-- **A part of a record cannot be read.** -/
theorem decodeStorageLine_take_record {n : ℕ} (h : Separated hasher (encodeBlockMessage b))
    (hn : n < (encodeStorageRecord hasher b).length) :
    ∃ e, decodeStorageLine hasher addr ((encodeStorageRecord hasher b).take n) = .error e := by
  have hversion : ∀ rest : Str, storageHeaderVersion.isPrefixOf
      (storageRecordVersion ++ '|' :: rest) = false := fun rest => rfl
  have hfirst : '|' ∉ storageRecordVersion := by decide
  rw [encodeStorageRecord_eq] at hn ⊢
  rcases take_fields hn with ⟨m, hm⟩ | ⟨m, hm⟩ | ⟨m, hlt, hm⟩ <;> rw [hm]
  · cases hd : decodeStorageLine hasher addr (storageRecordVersion.take m) with
    | error e => exact ⟨e, rfl⟩
    | ok decoded => exact absurd (bar_mem_of_decode hd) (notMem_take hfirst m)
  · rw [decodeStorageLine, hversion, decodeStorageRecord,
      splitn_two hfirst (notMem_take (bar_notMem_toHex _) m)]
    exact ⟨_, rfl⟩
  · rw [decodeStorageLine, hversion, decodeStorageRecord,
      splitn_three hfirst (bar_notMem_toHex _)]
    simp only [List.head?_cons, ne_eq, not_true_eq_false, if_false, Digest.fromHex_toHex]
    have hother := (h m hlt).symm
    simp [bind, Except.bind, Except.map, hother]

/-! ### Loading a cut log -/

lemma recordCodec (hasher : HashPort) (addr : AddrText) :
    LineCodec hasher addr (encodeStorageRecord hasher) :=
  ⟨decodeStorageLine_record hasher addr, encodeStorageRecord_subset hasher⟩

variable {complete : Bool} {lineNumber t : ℕ} {s : Loaded} {fc' : ForkChoiceState}

lemma loadLines_header {rest : List Str} :
    loadLines hasher sampler addr config complete lineNumber
        (encodeStorageHeader hasher config :: rest) (Loaded.init config) =
      loadLines hasher sampler addr config complete (lineNumber + 1) rest
        ⟨new config, true, false⟩ := by
  have hblank : isBlank (encodeStorageHeader hasher config) = false :=
    isBlank_eq_false_of_decode (decodeStorageLine_header hasher addr config)
  rw [loadLines, hblank, decodeStorageLine_header]
  simp [loadLine, loadHeader, Loaded.init]

/-- **Loading records that were cut** inserts the blocks whose records are left. -/
theorem loadLines_take_records (hpayload : ∀ b ∈ bs, Separated hasher (encodeBlockMessage b))
    (before : Str) (hacc : Accepted hasher sampler s.forkChoice bs fc')
    (hcomplete : complete = true → HasCompleteTail
      ((blockLines (encodeStorageRecord hasher) bs).take (t - (utf8 before).length))) :
    ∃ s', loadLines hasher sampler addr config complete lineNumber (lines
          ((blockLines (encodeStorageRecord hasher) bs).take (t - (utf8 before).length))) s =
        .ok s' ∧
      Accepted hasher sampler s.forkChoice
        (bs.take (linesWithin (encodeStorageRecord hasher) before bs t)) s'.forkChoice := by
  obtain ⟨s', hacc', hremains⟩ :=
    loadLines_take (recordCodec hasher addr) before hacc hcomplete
  refine ⟨s', ?_, hacc'⟩
  cases hremains with
  | nothing _ hload => exact hload
  | part b r n hnext hr htorn hload =>
    have hb : b ∈ bs := List.mem_of_mem_drop (List.mem_of_mem_head? hnext)
    rw [hload, htorn]
    exact loadLines_part (decodeStorageLine_take_record (hpayload b hb) hr)

/-- **Loading a log that was cut.** -/
theorem loadContent_take {withHeader : Bool} (hprint : Separated hasher (chainFingerprint config))
    (hpayload : ∀ b ∈ bs, Separated hasher (encodeBlockMessage b))
    (hacc : Accepted hasher sampler (new config) bs fc') (addr : AddrText) (t : ℕ) :
    ∃ s, loadContent hasher sampler addr config ((headerLine hasher config withHeader ++
          blockLines (encodeStorageRecord hasher) bs).take t) = .ok s ∧
      Accepted hasher sampler (new config) (bs.take (linesWithin (encodeStorageRecord hasher)
        (headerLine hasher config withHeader) bs t)) s.forkChoice := by
  rw [loadContent]
  generalize hflag : decide (HasCompleteTail ((headerLine hasher config withHeader ++
    blockLines (encodeStorageRecord hasher) bs).take t)) = complete
  have hcomplete : complete = true → HasCompleteTail ((headerLine hasher config withHeader ++
      blockLines (encodeStorageRecord hasher) bs).take t) :=
    fun h => of_decide_eq_true (hflag.trans h)
  cases withHeader with
  | false => exact loadLines_take_records (s := Loaded.init config) hpayload [] hacc hcomplete
  | true =>
    have hsubset := encodeStorageHeader_subset hasher config
    have hbar := bar_mem_of_decode (decodeStorageLine_header hasher addr config)
    have hlen : (utf8 (headerLine hasher config true)).length =
        (encodeStorageHeader hasher config).length + 1 := by
      have hnewline : (utf8 ['\n']).length = 1 := rfl
      rw [headerLine, if_pos rfl, utf8_append, List.length_append, utf8_line_length hsubset,
        hnewline]
    have hsplit : headerLine hasher config true ++ blockLines (encodeStorageRecord hasher) bs =
        encodeStorageHeader hasher config ++ '\n' ::
          blockLines (encodeStorageRecord hasher) bs := by
      simp [headerLine]
    rw [hsplit] at hcomplete ⊢
    by_cases hfits : (encodeStorageHeader hasher config).length ≤ t
    · have hcomplete' := fun hflag => hasCompleteTail_behind (hcomplete hflag)
      rw [← hlen] at hcomplete'
      rw [lines_take_behind (newline_notMem_line hsubset) (return_notLast_line hsubset)
        (List.ne_nil_of_mem hbar) hfits, loadLines_header, ← hlen]
      exact loadLines_take_records (s := ⟨new config, true, false⟩) hpayload _ hacc hcomplete'
    · have hpart : t < (encodeStorageHeader hasher config).length := not_le.mp hfits
      rw [linesWithin_eq_zero (by omega), List.take_zero,
        loadLines_take_within (newline_notMem_line hsubset) hpart hcomplete,
        loadLines_part (decodeStorageLine_take_header hprint hpart), ite_self]
      exact ⟨Loaded.init config, rfl, .nil⟩

/-! ### Interrupted tails -/

lemma log_ascii {withHeader : Bool} :
    Ascii (headerLine hasher config withHeader ++ blockLines (encodeStorageRecord hasher) bs) := by
  refine Ascii.append ?_ (blockLines_ascii (recordCodec hasher demoAddr) bs)
  unfold headerLine
  split
  · exact (lineAlphabet_ascii.mono (encodeStorageHeader_subset hasher config)).append
      (by simp [Ascii])
  · intro c hc
    cases hc

/-- **An interrupted tail is ignored.** After any run on a fresh log in which appends succeed,
every prefix of the file loads, and its fork choice is that of the blocks whose records lie
within the prefix. -/
theorem interrupted_tail_ignored (hasher : HashPort) (sampler : SamplingPort) (addr : AddrText)
    (B : Block → Prop) (config : ChainConfig)
    (hprint : Separated hasher (chainFingerprint config))
    (hpayload : ∀ b, B b → Separated hasher (encodeBlockMessage b))
    (hstart : LogStart hasher sampler addr B config [] st)
    (hsucceed : AllAppends Succeeds st)
    (hrun : Relation.ReflTransGen (Step hasher sampler B) st st') :
    ∃ withHeader bs disk, st'.storage = some disk ∧
      disk.file.getD [] = utf8 (headerLine hasher config withHeader ++
        blockLines (encodeStorageRecord hasher) bs) ∧
      Accepted hasher sampler (new config) bs st'.forkChoice ∧
      ∀ t, ∃ fc, Accepted hasher sampler (new config)
          (bs.take (linesWithin (encodeStorageRecord hasher)
            (headerLine hasher config withHeader) bs t)) fc ∧
        loadChains hasher sampler addr (some ((disk.file.getD []).take t)) config =
          .ok (view fc, fc) := by
  obtain ⟨withHeader, bs, h⟩ := appended_run hstart hsucceed hrun
  obtain ⟨disk, hdisk, htext⟩ := Option.bind_eq_some_iff.mp h.log
  have hbytes := utf8_of_fromUtf8 htext
  refine ⟨withHeader, bs, disk, hdisk, hbytes.symm, h.accepted, fun t => ?_⟩
  obtain ⟨s, hload, hacc⟩ := loadContent_take hprint (fun b hb => hpayload b (h.drawn b hb))
    h.accepted addr t
  refine ⟨s.forkChoice, hacc, (loadChains_ok_iff ?_).mpr ⟨s, hload, rfl, rfl⟩⟩
  rw [Option.getD_some, ← hbytes, take_utf8_ascii log_ascii, fromUtf8_utf8]

/-- No part of the bytes leaves the first lane with what it is in the digest in the end. -/
def firstLanesDiffer (last : UInt64) : Lanes → ℕ → Bytes → Bool
  | _, _, [] => true
  | lanes, i, byte :: rest =>
    mix64 (lanes.l0 ^^^ UInt64.ofNat i) != last &&
      firstLanesDiffer last (absorbByte lanes i byte) (i + 1) rest

lemma firstLanesDiffer_take {last : UInt64} {lanes : Lanes} {i : ℕ} {bytes : Bytes}
    (h : firstLanesDiffer last lanes i bytes = true) :
    ∀ n < bytes.length, mix64 ((absorb lanes i (bytes.take n)).l0 ^^^ UInt64.ofNat (i + n)) ≠
      last := by
  induction bytes generalizing lanes i with
  | nil => exact fun n hn => absurd hn (Nat.not_lt_zero n)
  | cons byte rest ih =>
    rw [firstLanesDiffer, Bool.and_eq_true, bne_iff_ne] at h
    intro n hn
    cases n with
    | zero => exact h.1
    | succ n =>
      have hrest := ih h.2 n (Nat.lt_of_succ_lt_succ hn)
      rwa [Nat.add_right_comm] at hrest

/-- The first lane tells the parts of a payload from the payload. -/
lemma separated_of_firstLanes {payload : Str} (hascii : Ascii payload)
    (h : firstLanesDiffer (mix64 ((absorb Lanes.initial 0 (utf8 payload)).l0 ^^^
      UInt64.ofNat (utf8 payload).length)) Lanes.initial 0 (utf8 payload) = true) :
    Separated toyHash payload := by
  intro n hn heq
  have hlen : n < (utf8 payload).length := by rwa [utf8_length_ascii hascii]
  have hpart : (utf8 (payload.take n)).length = n := by
    rw [← take_utf8_ascii hascii, List.length_take, min_eq_left hlen.le]
  have hheads : (toyDigest (utf8 (payload.take n))).bytes.take 8 =
      (toyDigest (utf8 payload)).bytes.take 8 := congrArg (fun d => d.bytes.take 8) heq
  rw [toyDigest_head, toyDigest_head, hpart, ← take_utf8_ascii hascii] at hheads
  have hdiffer := firstLanesDiffer_take h n hlen
  rw [Nat.zero_add] at hdiffer
  exact hdiffer (HashBinding.u64Le_inj hheads)

theorem interrupted_tail_ignored_one_block :
    ∃ st, Step toyHash deterministicSampler (· = demoBlock) (demoNode ⟨none, []⟩) st ∧
      st.forkChoice.containsBlock (blockHash toyHash demoBlock) = true ∧
      ∃ bs disk, st.storage = some disk ∧
        Accepted toyHash deterministicSampler (new demoConfig) bs st.forkChoice ∧
        ∀ t, ∃ chain fc, loadChains toyHash deterministicSampler demoAddr
          (some ((disk.file.getD []).take t)) demoConfig = .ok (chain, fc) := by
  have hlanes : firstLanesDiffer (mix64 ((absorb Lanes.initial 0
        (utf8 (chainFingerprint demoConfig))).l0 ^^^
          UInt64.ofNat (utf8 (chainFingerprint demoConfig)).length)) Lanes.initial 0
        (utf8 (chainFingerprint demoConfig)) = true ∧
      firstLanesDiffer (mix64 ((absorb Lanes.initial 0
        (utf8 (encodeBlockMessage demoBlock))).l0 ^^^
          UInt64.ofNat (utf8 (encodeBlockMessage demoBlock)).length)) Lanes.initial 0
        (utf8 (encodeBlockMessage demoBlock)) = true := by decide +kernel
  have hprint : Separated toyHash (chainFingerprint demoConfig) := separated_of_firstLanes
    (lineAlphabet_ascii.mono (List.Subset.trans (chainFingerprint_subset demoConfig) (by decide)))
    hlanes.1
  have hpayload : Separated toyHash (encodeBlockMessage demoBlock) := separated_of_firstLanes
    (lineAlphabet_ascii.mono (List.Subset.trans (encodeBlock_subset demoBlock) (by decide)))
    hlanes.2
  obtain ⟨st, hstep, hknown⟩ : ∃ st, Step toyHash deterministicSampler (· = demoBlock)
      (demoNode ⟨none, []⟩) st ∧
      st.forkChoice.containsBlock (blockHash toyHash demoBlock) = true :=
    ⟨_, .incoming demoBlock .gossip rfl, demoNode_takes _⟩
  obtain ⟨withHeader, bs, disk, hdisk, -, hacc, hcuts⟩ := interrupted_tail_ignored toyHash
    deterministicSampler demoAddr (· = demoBlock) demoConfig hprint
    (fun b hb => hb.symm ▸ hpayload) (freshNode_logStart _ _) (demoNode_succeed _ rfl)
    (.single hstep)
  refine ⟨st, hstep, hknown, bs, disk, hdisk, hacc, fun t => ?_⟩
  obtain ⟨fc, -, hload⟩ := hcuts t
  exact ⟨view fc, fc, hload⟩

end Chesscoin.LogCuts

import Chesscoin.BlockCuts
import Chesscoin.CutLogs
import Chesscoin.Replay
import Chesscoin.Screening

/-!
Cut logs of the older kind.

A plain line has no checksum. What a cut leaves of it is passed over only as long as it cannot
be read; when it has the shape of a block it is inserted, is not valid after the parent of the
block it is a part of, and the log does not load.
-/

namespace Chesscoin.LegacyCuts

open Chesscoin.Lib.ByteString Chesscoin.Lib.Text Chesscoin.Domain Chesscoin.Simulator
  Chesscoin.Validation Chesscoin.ForkChoice Chesscoin.ForkTree Chesscoin.Wire
  Chesscoin.BlockCodec Chesscoin.BlockCuts Chesscoin.Storage Chesscoin.ActiveView
  Chesscoin.LogLines Chesscoin.LogReplay Chesscoin.CutLogs Chesscoin.NodeLog Chesscoin.Replay
  Chesscoin.Screening Chesscoin.Adapters
open ForkChoiceState

variable {hasher : HashPort} {sampler : SamplingPort} {addr : AddrText} {config : ChainConfig}
  {b : Block} {bs bs' : List Block} {n : ℕ} {s : Loaded} {fc fc' fc'' : ForkChoiceState}

/-! ### Plain lines -/

lemma plainCodec (hasher : HashPort) (addr : AddrText) :
    LineCodec hasher addr encodeBlockMessage :=
  ⟨decodeStorageLine_plain, fun b => List.Subset.trans (encodeBlock_subset b) (by decide)⟩

/-- A line that begins like a plain one is read as nothing else. -/
lemma decodeStorageLine_plain_start (rest : Str) :
    decodeStorageLine hasher addr ('B' :: rest) =
      (decodeBlockMessage addr ('B' :: rest)).map .block := by
  have hprefix : storageHeaderVersion.isPrefixOf ('B' :: rest) = false := rfl
  have hversion : (splitn 3 '|' ('B' :: rest)).head? ≠ some storageRecordVersion := by
    rw [splitn]
    split
    · rw [List.takeWhile_cons_of_pos (by decide), List.head?_cons]
      intro h
      cases h
    · intro h
      cases h
  rw [decodeStorageLine, hprefix, decodeStorageRecord]
  simp only [if_pos hversion, Bool.false_eq_true, if_false]

lemma decodeStorageLine_take_plain (hn : n < (encodeBlockMessage b).length)
    (hshape : blockShape ((encodeBlockMessage b).take n) = false) :
    ∃ e, decodeStorageLine hasher addr ((encodeBlockMessage b).take n) = .error e := by
  obtain ⟨e, he⟩ : ∃ e, decodeBlockMessage addr ((encodeBlockMessage b).take n) = .error e :=
    decodeBlockMessage_take hn hshape
  obtain ⟨rest, hrest⟩ : ∃ rest, encodeBlockMessage b = 'B' :: rest := ⟨_, rfl⟩
  rw [hrest] at he ⊢
  cases n with
  | zero =>
    cases hd : decodeStorageLine hasher addr (('B' :: rest).take 0) with
    | error e => exact ⟨e, rfl⟩
    | ok decoded => exact absurd (bar_mem_of_decode hd) List.not_mem_nil
  | succ n =>
    rw [List.take_succ_cons] at he ⊢
    rw [decodeStorageLine_plain_start, he]
    exact ⟨e, rfl⟩

/-! ### Chains -/

/-- The node the next block of a chain is put on: that of the last block before it. -/
def OnLast (hasher : HashPort) (bs : List Block) (fc : ForkChoiceState) : Prop :=
  ∀ b, bs.getLast? = some b → ∃ n, fc.look (blockHash hasher b) = some n ∧
    n.hash = blockHash hasher b ∧ n.block = b ∧ n.nextHeight = b.header.height + 1

lemma parentContext_onLast {k : ℕ} (h : Replayed hasher sampler config bs)
    (hnonzero : ∀ b ∈ bs, blockHash hasher b ≠ Digest.zero) (hlast : OnLast hasher (bs.take k) fc)
    (hb : bs[k]? = some b) :
    ∃ score, fc.parentContext b =
      .ok ((ChainState.mk config (bs.take k)).headContext hasher, score) := by
  obtain ⟨hk, -⟩ := List.getElem?_eq_some_iff.mp hb
  have hprev := h.previousBlock hb
  cases k with
  | zero =>
    have hzero : b.header.previousBlock = Digest.zero := hprev
    exact ⟨0, by rw [parentContext, if_pos hzero]; rfl⟩
  | succ k =>
    obtain ⟨a, ha⟩ : ∃ a, bs[k]? = some a := ⟨_, List.getElem?_eq_getElem (by omega)⟩
    have hgetLast : (bs.take (k + 1)).getLast? = some a := by
      rw [List.take_add_one, ha]
      simp
    obtain ⟨n, hn, hhash, hblock, hheight⟩ := hlast a hgetLast
    rw [prevHash_succ ha] at hprev
    have hne : b.header.previousBlock ≠ Digest.zero := by
      rw [hprev]
      exact hnonzero a (List.mem_of_getElem? ha)
    have hlength : (bs.take (k + 1)).length = k + 1 := by
      rw [List.length_take]
      omega
    refine ⟨n.workScore, ?_⟩
    rw [parentContext, if_neg hne, hprev, hn]
    simp only [hhash, hblock, hheight, h.height ha, ChainState.headContext, ChainState.height,
      ChainState.headHash, ChainState.currentModel, hgetLast, hlength, Option.map_some,
      Option.getD_some, UInt64.ofNat_add]
    rfl

/-- The next block of a chain goes in on top of the last one before it. -/
lemma accepts_next {k : ℕ} (h : Replayed hasher sampler config bs)
    (hnonzero : ∀ b ∈ bs, blockHash hasher b ≠ Digest.zero) (hconfig : fc.config = config)
    (hlast : OnLast hasher (bs.take k) fc) (hb : bs[k]? = some b)
    (hnew : fc.look (blockHash hasher b) = none) :
    ∃ fc', fc.insertBlock hasher sampler b = (.ok (blockHash hasher b), fc') ∧
      fc'.config = config ∧ OnLast hasher (bs.take k ++ [b]) fc' := by
  obtain ⟨score, hctx⟩ := parentContext_onLast h hnonzero hlast hb
  have hvalid : Valid hasher sampler fc.config _ b := hconfig ▸ h k b hb
  refine ⟨_, insertBlock_valid hnew hctx hvalid, (addNode_config _).trans hconfig, ?_⟩
  intro b' hb'
  rw [List.getLast?_append_of_ne_nil _ (List.cons_ne_nil _ _)] at hb'
  obtain rfl : b = b' := Option.some.inj hb'
  exact ⟨_, addNode_forkNode_look fc score b, rfl, rfl, rfl⟩

/-- **A chain that replays is accepted**, block after block, when its blocks have hashes of their
own. -/
theorem accepted_of_replayed (h : Replayed hasher sampler config bs)
    (hnonzero : ∀ b ∈ bs, blockHash hasher b ≠ Digest.zero)
    (hnodup : (bs.map (blockHash hasher)).Nodup) :
    ∃ fc, Accepted hasher sampler (new config) bs fc := by
  have hfirst : ∀ k ≤ bs.length, ∃ fc, Accepted hasher sampler (new config) (bs.take k) fc ∧
      fc.config = config ∧ OnLast hasher (bs.take k) fc := by
    intro k
    induction k with
    | zero => exact fun _ => ⟨new config, .nil, rfl, fun b hb => (nomatch hb)⟩
    | succ k ih =>
      intro hk
      obtain ⟨fc, hacc, hconfig, hlast⟩ := ih (by omega)
      obtain ⟨b, hb⟩ : ∃ b, bs[k]? = some b := ⟨_, List.getElem?_eq_getElem (by omega)⟩
      have htake : bs.take (k + 1) = bs.take k ++ [b] := by
        rw [List.take_add_one, hb]
        rfl
      have hnew : fc.look (blockHash hasher b) = none := by
        refine (hacc.look_none _).mpr ⟨look_new config _, fun a ha heq => ?_⟩
        rw [← List.take_append_drop (k + 1) bs, List.map_append, htake, List.map_append] at hnodup
        have hdisjoint := (List.nodup_append.mp (List.nodup_append.mp hnodup).1).2.2
        exact hdisjoint _ (List.mem_map_of_mem ha) _ (by simp) heq
      obtain ⟨fc', hins, hconfig', hlast'⟩ := accepts_next h hnonzero hconfig hlast hb hnew
      rw [htake]
      exact ⟨fc', .snoc hacc hins, hconfig', hlast'⟩
  obtain ⟨fc, hacc, -⟩ := hfirst bs.length le_rfl
  rw [List.take_length] at hacc
  exact ⟨fc, hacc⟩

/-! ### Inserting a part -/

/-- **A part of a new block is refused.** -/
theorem insertBlock_withEntries {es : List TraceEntry} {hash : Digest}
    (hnew : fc.look (blockHash hasher b) = none)
    (hins : fc.insertBlock hasher sampler b = (.ok hash, fc'))
    (helse : EndsElsewhere b.trace.entries es) :
    ∃ e, fc.insertBlock hasher sampler (withEntries b es) = (.error e, fc) := by
  obtain ⟨ctx, score, hctx, hvalid, -⟩ := insertBlock_taken hnew hins
  have hnew' : fc.look (blockHash hasher (withEntries b es)) = none := hnew
  refine insertBlock_refused hnew' fun ctx' score' hctx' => ?_
  have hparent : fc.parentContext (withEntries b es) = fc.parentContext b := rfl
  rw [hparent, hctx] at hctx'
  cases hctx'
  exact not_valid_withEntries hvalid helse

/-- A block that is known is taken for inserted. -/
lemma insertBlock_withEntries_known {es : List TraceEntry}
    (hknown : fc.containsBlock (blockHash hasher b) = true) :
    fc.insertBlock hasher sampler (withEntries b es) = (.ok (blockHash hasher b), fc) := by
  have hsame : blockHash hasher (withEntries b es) = blockHash hasher b := rfl
  simp [ForkChoiceState.insertBlock, hsame, hknown]

/-! ### Loading a part -/

/-- **Loading a part of the line of the next block**: it is passed over when it does not have
the shape of a block, or a block with its header is known, and makes loading fail otherwise. -/
theorem loadLines_take_plain {hash : Digest} (hn : n < (encodeBlockMessage b).length)
    (hins : s.forkChoice.insertBlock hasher sampler b = (.ok hash, fc')) (addr : AddrText)
    (lineNumber : ℕ) :
    ((blockShape ((encodeBlockMessage b).take n) = false ∨
          s.forkChoice.containsBlock (blockHash hasher b) = true) ∧
        ∃ s', loadLines hasher sampler addr config false lineNumber
          [(encodeBlockMessage b).take n] s = .ok s' ∧ s'.forkChoice = s.forkChoice) ∨
      (¬(blockShape ((encodeBlockMessage b).take n) = false ∨
          s.forkChoice.containsBlock (blockHash hasher b) = true) ∧
        ∃ e, loadLines hasher sampler addr config false lineNumber
          [(encodeBlockMessage b).take n] s = .error e) := by
  cases hshape : blockShape ((encodeBlockMessage b).take n) with
  | false =>
    exact .inl ⟨.inl rfl, s, loadLines_part (decodeStorageLine_take_plain hn hshape), rfl⟩
  | true =>
    obtain ⟨es, hwritten, helse⟩ := block_take hn hshape
    have hread : decodeStorageLine hasher addr (encodeBlockMessage (withEntries b es)) =
        .ok (.block (withEntries b es)) := decodeStorageLine_plain _
    rw [hwritten]
    by_cases hknown : s.forkChoice.containsBlock (blockHash hasher b) = true
    · rw [loadLines_line hread (insertBlock_withEntries_known hknown)]
      exact .inl ⟨.inr hknown, _, rfl, rfl⟩
    · have hnew := (not_containsBlock_iff _).mp ((Bool.not_eq_true _).mp hknown)
      obtain ⟨e, he⟩ := insertBlock_withEntries hnew hins helse
      refine .inr ⟨?_, .rejectedBlock lineNumber e, ?_⟩
      · rintro (h | h)
        · cases h
        · exact hknown h
      · rw [loadLines, isBlank_eq_false_of_decode hread, hread]
        simp only [Bool.false_eq_true, if_false, loadLine, loadBlock, he]

/-! ### Legacy tails -/

/-- The log of these blocks, cut after `t` bytes, loads as the blocks whose lines are whole. -/
def TailIgnored (hasher : HashPort) (sampler : SamplingPort) (addr : AddrText)
    (config : ChainConfig) (bs : List Block) (t : ℕ) : Prop :=
  ∃ fc, Accepted hasher sampler (new config)
      (bs.take (linesWithin encodeBlockMessage [] bs t)) fc ∧
    loadChains hasher sampler addr (some ((utf8 (plainLog bs)).take t)) config = .ok (view fc, fc)

/-- The block after the first `k` has the header hash of one of them. -/
def HashRepeats (hasher : HashPort) (bs : List Block) (k : ℕ) : Prop :=
  ∃ b ∈ (bs.drop k).head?, ∃ b' ∈ bs.take k, blockHash hasher b' = blockHash hasher b

lemma hashRepeats_iff {k : ℕ} (h : Accepted hasher sampler (new config) (bs.take k) fc)
    (hnext : (bs.drop k).head? = some b) :
    HashRepeats hasher bs k ↔ fc.containsBlock (blockHash hasher b) = true := by
  have hnone := h.look_none (blockHash hasher b)
  rw [← not_containsBlock_iff, ← Bool.not_eq_true] at hnone
  rw [← not_iff_not, hnone, HashRepeats, hnext]
  constructor
  · intro hnot
    refine ⟨look_new config _, fun b' hb' heq => hnot ⟨b, rfl, b', hb', heq⟩⟩
  · rintro ⟨-, hall⟩ ⟨_, ⟨⟩, b', hb', heq⟩
    exact hall b' hb' heq

/-- What is loaded of a plain log that was cut. -/
lemma loadChains_take_plain (hacc : Accepted hasher sampler (new config) bs fc') (addr : AddrText)
    (t : ℕ) :
    ∃ s' loaded, Accepted hasher sampler (new config)
        (bs.take (linesWithin encodeBlockMessage [] bs t)) s'.forkChoice ∧
      Remains hasher sampler addr config encodeBlockMessage
        (tornLine encodeBlockMessage [] bs t)
        (bs.drop (linesWithin encodeBlockMessage [] bs t)).head? s' loaded ∧
      ∀ chain fc, loadChains hasher sampler addr (some ((utf8 (plainLog bs)).take t)) config =
        .ok (chain, fc) ↔ ∃ s, loaded = .ok s ∧ s.forkChoice = fc ∧ chain = view fc := by
  have hcodec := plainCodec hasher addr
  have htext : fromUtf8 ((some ((utf8 (plainLog bs)).take t)).getD []) =
      some ((plainLog bs).take t) := by
    rw [Option.getD_some]
    have hascii : Ascii (plainLog bs) := blockLines_ascii hcodec bs
    rw [take_utf8_ascii hascii, fromUtf8_utf8]
  obtain ⟨s', hacc', hremains⟩ := loadLines_take (s := Loaded.init config) (t := t) hcodec [] hacc
    (of_decide_eq_true : _ → HasCompleteTail ((plainLog bs).take t))
  exact ⟨s', _, hacc', hremains, fun chain fc => loadChains_ok_iff htext⟩

/-- **When an interrupted tail of a legacy log is ignored.** A log of blocks that are accepted one
after the other loads after a cut as the blocks whose lines are whole, if and only if what is left
behind these lines does not have the shape of a block, or its block has the header hash of an
earlier one. -/
theorem legacy_tail_ignored_iff (hasher : HashPort) (sampler : SamplingPort) (addr : AddrText)
    (config : ChainConfig) (bs : List Block) (t : ℕ)
    (hvalid : ∃ fc, Accepted hasher sampler (new config) bs fc) :
    TailIgnored hasher sampler addr config bs t ↔
      blockShape (tornLine encodeBlockMessage [] bs t) = false ∨
        HashRepeats hasher bs (linesWithin encodeBlockMessage [] bs t) := by
  obtain ⟨fc', hacc⟩ := hvalid
  obtain ⟨s', loaded, hfirst, hremains, hload⟩ := loadChains_take_plain hacc addr t
  cases hremains with
  | nothing htorn hok =>
    rw [htorn]
    exact iff_of_true ⟨s'.forkChoice, hfirst, (hload _ _).mpr ⟨s', hok, rfl, rfl⟩⟩ (.inl rfl)
  | part b r lineNumber hnext hr htorn hloaded =>
    obtain ⟨hash, fc₁, hins⟩ := hacc.next hfirst hnext
    rw [hashRepeats_iff hfirst hnext, htorn]
    rw [htorn] at hloaded
    rcases loadLines_take_plain hr hins addr lineNumber with
      ⟨hpassed, s'', hok, hsame⟩ | ⟨hread, e, herror⟩
    · refine iff_of_true ⟨s'.forkChoice, hfirst, (hload _ _).mpr ?_⟩ hpassed
      exact ⟨s'', hloaded.trans hok, hsame, rfl⟩
    · refine iff_of_false ?_ hread
      rintro ⟨fc, -, hchains⟩
      obtain ⟨s'', hok, -⟩ := (hload _ _).mp hchains
      rw [hloaded, herror] at hok
      cases hok

lemma demoBlock_accepted :
    ∃ fc, Accepted toyHash deterministicSampler (new demoConfig) [demoBlock] fc := by
  obtain ⟨fc, hins⟩ := demoBlock_inserts
  exact ⟨fc, .snoc .nil hins⟩

/-- The log of one block ends `15_-30`; it loads when it has lost two digits. -/
theorem legacy_tail_ignored_two_digits_less :
    TailIgnored toyHash deterministicSampler demoAddr demoConfig [demoBlock] 554 :=
  (legacy_tail_ignored_iff toyHash deterministicSampler demoAddr demoConfig [demoBlock] 554
    demoBlock_accepted).mpr (.inl (by decide +kernel))

/-- The same log has lost one digit and its newline. The weight `-3` is read for `-30`, and
loading fails. -/
theorem legacy_tail_is_fatal_one_digit_less :
    (∃ fc, Accepted toyHash deterministicSampler (new demoConfig) [demoBlock] fc) ∧
      ∀ chain fc, loadChains toyHash deterministicSampler demoAddr
        (some ((utf8 (plainLog [demoBlock])).take 555)) demoConfig ≠ .ok (chain, fc) := by
  have hcut : linesWithin encodeBlockMessage [] [demoBlock] 555 = 0 ∧
      blockShape (tornLine encodeBlockMessage [] [demoBlock] 555) = true := by decide +kernel
  refine ⟨demoBlock_accepted, fun chain fc hchains => ?_⟩
  obtain ⟨fc', hacc⟩ := demoBlock_accepted
  obtain ⟨s', loaded, hfirst, hremains, hload⟩ := loadChains_take_plain hacc demoAddr 555
  rw [hcut.1] at hfirst hremains
  obtain ⟨s'', hok, -⟩ := (hload chain fc).mp hchains
  cases hremains with
  | nothing htorn _ =>
    rw [htorn] at hcut
    exact absurd hcut.2 (by decide)
  | part b r lineNumber hnext hr htorn hloaded =>
    obtain rfl : demoBlock = b := Option.some.inj hnext
    obtain ⟨hash, fc₁, hins⟩ := hacc.next hfirst hnext
    rw [htorn] at hcut hloaded
    rcases loadLines_take_plain hr hins demoAddr lineNumber with ⟨hpassed, -⟩ | ⟨-, e, herror⟩
    · rw [hcut.2, ← hashRepeats_iff hfirst hnext] at hpassed
      rcases hpassed with h | ⟨_, -, b', hb', -⟩
      · cases h
      · cases hb'
    · rw [hloaded, herror] at hok
      cases hok

end Chesscoin.LegacyCuts

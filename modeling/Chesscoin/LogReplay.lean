import Chesscoin.ActiveView
import Chesscoin.LogLines

/-!
Loading a log inserts the blocks its lines are read as, one after the other.

So what has been loaded is known from the blocks of the log alone: each of them is known,
nothing else is, and the parent of each came before it. An append to a log whose last line
is complete adds one block; an append to any other log makes a line that cannot be loaded.
-/

namespace Chesscoin.LogReplay

open Chesscoin.Lib.ByteString Chesscoin.Lib.Text Chesscoin.Lib.Linked Chesscoin.Domain
  Chesscoin.Simulator Chesscoin.Validation Chesscoin.ForkChoice Chesscoin.ForkTree
  Chesscoin.Wire Chesscoin.Storage Chesscoin.LogLines Chesscoin.ActiveView
open ForkChoiceState

variable {hasher : HashPort} {sampler : SamplingPort} {addr : AddrText}

/-! ### The blocks of a log -/

/-- The block a line is read as. -/
def lineBlock (hasher : HashPort) (addr : AddrText) (line : Str) : Option Block :=
  match decodeStorageLine hasher addr line with
  | .ok (.block b) => some b
  | _ => none

def loggedBlocks (hasher : HashPort) (addr : AddrText) (text : Str) : List Block :=
  (lines text).filterMap (lineBlock hasher addr)

lemma loggedBlocks_append {s t : Str} (h : HasCompleteTail s) :
    loggedBlocks hasher addr (s ++ t) =
      loggedBlocks hasher addr s ++ loggedBlocks hasher addr t := by
  rw [loggedBlocks, lines_append h, List.filterMap_append]
  rfl

/-- The text one append writes. -/
def entryText (hasher : HashPort) (config : ChainConfig) (block : Block)
    (shouldWriteHeader : Bool) : Str :=
  (if shouldWriteHeader then encodeStorageHeader hasher config ++ ['\n'] else []) ++
    (encodeStorageRecord hasher block ++ ['\n'])

variable {config : ChainConfig} {block : Block} {shouldWriteHeader : Bool}

lemma appendBytes_eq :
    appendBytes hasher config block shouldWriteHeader =
      utf8 (entryText hasher config block shouldWriteHeader) := rfl

lemma entryText_ascii : Ascii (entryText hasher config block shouldWriteHeader) := by
  have hnewline : Ascii ['\n'] := by
    intro c hc
    rw [List.mem_singleton.mp hc]
    decide
  have hheader := lineAlphabet_ascii.mono (encodeStorageHeader_subset hasher config)
  have hrecord := lineAlphabet_ascii.mono (encodeStorageRecord_subset hasher block)
  refine Ascii.append ?_ (hrecord.append hnewline)
  split
  · exact hheader.append hnewline
  · intro c hc
    cases hc

lemma entryText_getLast :
    (entryText hasher config block shouldWriteHeader).getLast? = some '\n' := by
  simp [entryText]

lemma lines_entryText :
    lines (entryText hasher config block shouldWriteHeader) =
      (if shouldWriteHeader then [encodeStorageHeader hasher config] else []) ++
        [encodeStorageRecord hasher block] := by
  have hrecord := lines_of_subset (encodeStorageRecord_subset hasher block)
  cases shouldWriteHeader with
  | false => simpa [entryText] using hrecord
  | true =>
    have hheader := lines_of_subset (encodeStorageHeader_subset hasher config)
    have htail : HasCompleteTail (encodeStorageHeader hasher config ++ ['\n']) :=
      .inr (by simp)
    simp only [entryText, if_true, lines_append htail, hheader, hrecord]

lemma loggedBlocks_entryText :
    loggedBlocks hasher addr (entryText hasher config block shouldWriteHeader) = [block] := by
  rw [loggedBlocks, lines_entryText]
  cases shouldWriteHeader <;>
    simp [lineBlock, decodeStorageLine_header, decodeStorageLine_record]

lemma loggedBlocks_entry {text : Str} (h : HasCompleteTail text) :
    loggedBlocks hasher addr (text ++ entryText hasher config block shouldWriteHeader) =
      loggedBlocks hasher addr text ++ [block] := by
  rw [loggedBlocks_append h, loggedBlocks_entryText]

/-! ### Blocks that were all accepted -/

/-- `fc'` is `fc` after the blocks were inserted one after the other, all of them
successfully. -/
inductive Accepted (hasher : HashPort) (sampler : SamplingPort) (fc : ForkChoiceState) :
    List Block → ForkChoiceState → Prop
  | nil : Accepted hasher sampler fc [] fc
  | snoc {bs : List Block} {b : Block} {hash : Digest} {fc' fc'' : ForkChoiceState} :
      Accepted hasher sampler fc bs fc' →
      fc'.insertBlock hasher sampler b = (.ok hash, fc'') →
      Accepted hasher sampler fc (bs ++ [b]) fc''

variable {fc fc' fc'' : ForkChoiceState} {b : Block} {bs bs' : List Block}

lemma Accepted.append (h : Accepted hasher sampler fc bs fc')
    (h' : Accepted hasher sampler fc' bs' fc'') :
    Accepted hasher sampler fc (bs ++ bs') fc'' := by
  induction h' with
  | nil => rwa [List.append_nil]
  | snoc _ hins ih =>
    rw [← List.append_assoc]
    exact .snoc ih hins

lemma Accepted.nil_inv (h : Accepted hasher sampler fc [] fc') : fc' = fc := by
  generalize hnil : [] = all at h
  cases h with
  | nil => rfl
  | snoc hacc hins => simp at hnil

/-- The first of the blocks is inserted first. -/
lemma Accepted.cons_inv (h : Accepted hasher sampler fc (b :: bs) fc') :
    ∃ hash fc₁, fc.insertBlock hasher sampler b = (.ok hash, fc₁) ∧
      Accepted hasher sampler fc₁ bs fc' := by
  generalize hall : b :: bs = all at h
  induction h generalizing bs with
  | nil => cases hall
  | @snoc all c hash fc' fc'' hacc hins ih =>
    cases all with
    | nil =>
      obtain ⟨rfl, rfl⟩ := List.cons.inj hall
      rw [hacc.nil_inv] at hins
      exact ⟨hash, fc'', hins, .nil⟩
    | cons a all =>
      obtain ⟨rfl, rfl⟩ := List.cons.inj hall
      obtain ⟨hash₁, fc₁, hfirst, hrest⟩ := ih rfl
      exact ⟨hash₁, fc₁, hfirst, .snoc hrest hins⟩

lemma Accepted.append_inv (h : Accepted hasher sampler fc (bs ++ bs') fc'') :
    ∃ fc', Accepted hasher sampler fc bs fc' ∧ Accepted hasher sampler fc' bs' fc'' := by
  induction bs generalizing fc with
  | nil => exact ⟨fc, .nil, h⟩
  | cons b bs ih =>
    obtain ⟨hash, fc₁, hins, hrest⟩ := h.cons_inv
    obtain ⟨fc', hbs, hbs'⟩ := ih hrest
    exact ⟨fc', Accepted.append (.snoc .nil hins) hbs, hbs'⟩

lemma Accepted.unique (h : Accepted hasher sampler fc bs fc')
    (h' : Accepted hasher sampler fc bs fc'') : fc' = fc'' := by
  induction bs generalizing fc with
  | nil => rw [h.nil_inv, h'.nil_inv]
  | cons b bs ih =>
    obtain ⟨hash, fc₁, hins, hrest⟩ := h.cons_inv
    obtain ⟨hash', fc₁', hins', hrest'⟩ := h'.cons_inv
    rw [hins] at hins'
    obtain ⟨-, rfl⟩ := Prod.mk.inj hins'
    exact ih hrest hrest'

/-- The next block after the first of them is accepted on what these have come to. -/
lemma Accepted.next {k : ℕ} (h : Accepted hasher sampler fc bs fc'')
    (hfirst : Accepted hasher sampler fc (bs.take k) fc') (hnext : (bs.drop k).head? = some b) :
    ∃ hash fc₁, fc'.insertBlock hasher sampler b = (.ok hash, fc₁) := by
  obtain ⟨rest, hrest⟩ : ∃ rest, bs.drop k = b :: rest := by
    cases hdrop : bs.drop k with
    | nil =>
      rw [hdrop] at hnext
      cases hnext
    | cons c rest =>
      rw [hdrop, List.head?_cons, Option.some.injEq] at hnext
      exact ⟨rest, by rw [hnext]⟩
  rw [← List.take_append_drop k bs, hrest] at h
  obtain ⟨fc₁, hbefore, hafter⟩ := h.append_inv
  obtain rfl := hbefore.unique hfirst
  obtain ⟨hash, fc₂, hins, -⟩ := hafter.cons_inv
  exact ⟨hash, fc₂, hins⟩

/-- Exactly the hashes of the blocks are known besides those known before. -/
lemma Accepted.look_none (h : Accepted hasher sampler fc bs fc') (k : Digest) :
    fc'.look k = none ↔ fc.look k = none ∧ ∀ b ∈ bs, blockHash hasher b ≠ k := by
  induction h with
  | nil => simp
  | snoc _ hins ih =>
    rw [look_insertBlock_none hins, ih]
    simp only [List.mem_append, List.mem_singleton]
    grind

lemma Accepted.known (h : Accepted hasher sampler fc bs fc') (hb : b ∈ bs) :
    fc'.containsBlock (blockHash hasher b) = true := by
  rw [← Bool.not_eq_false, not_containsBlock_iff, h.look_none]
  exact fun hk => hk.2 b hb rfl

/-- What is known is one of the blocks. -/
lemma Accepted.block_mem (h : Accepted hasher sampler (new config) bs fc') {k : Digest}
    {n : ForkNode} (hk : fc'.look k = some n) : n.block ∈ bs := by
  induction h with
  | nil =>
    rw [look_new] at hk
    cases hk
  | snoc _ hins ih =>
    rw [List.mem_append, List.mem_singleton]
    rcases look_insertBlock_some hins hk with hk | rfl
    · exact .inl (ih hk)
    · exact .inr rfl

/-- Every block is a first block, or its parent is before it. -/
def ParentsFirst (hasher : HashPort) (bs : List Block) : Prop :=
  ∀ before b after, bs = before ++ b :: after →
    b.header.previousBlock = Digest.zero ∨
      ∃ p ∈ before, blockHash hasher p = b.header.previousBlock

lemma parentsFirst_nil : ParentsFirst hasher [] := by
  intro before b after h
  simp at h

lemma parentsFirst_snoc {b : Block} :
    ParentsFirst hasher (bs ++ [b]) ↔ ParentsFirst hasher bs ∧
      (b.header.previousBlock = Digest.zero ∨
        ∃ p ∈ bs, blockHash hasher p = b.header.previousBlock) := by
  refine ⟨fun h => ⟨fun before b' after hbs => ?_, h bs b [] rfl⟩, fun h => ?_⟩
  · exact h before b' (after ++ [b]) (by rw [hbs]; simp)
  · intro before b' after hbs
    rcases List.eq_nil_or_concat after with rfl | ⟨after', c, rfl⟩
    · obtain ⟨rfl, hb⟩ := List.append_inj' hbs rfl
      cases hb
      exact h.2
    · rw [List.concat_eq_append, ← List.cons_append, ← List.append_assoc] at hbs
      obtain ⟨rfl, -⟩ := List.append_inj' hbs rfl
      exact h.1 before b' after' rfl

/-- No two headers of blocks of `B` share a hash. -/
def DistinctHeaders (hasher : HashPort) (B : Block → Prop) : Prop :=
  ∀ b b', B b → B b' → blockHash hasher b = blockHash hasher b' → b.header = b'.header

/-- **Accepted blocks come after their parents.** -/
theorem Accepted.parentsFirst {B : Block → Prop} (hdistinct : DistinctHeaders hasher B)
    (hB : ∀ b ∈ bs, B b) (h : Accepted hasher sampler (new config) bs fc') :
    ParentsFirst hasher bs := by
  induction h with
  | nil => exact parentsFirst_nil
  | @snoc bs b hash fc' fc'' hacc hins ih =>
    have hbs : ∀ b ∈ bs, B b := fun b hb => hB b (by simp [hb])
    have hmem : ∀ k, (∃ n, fc'.look k = some n) → ∃ p ∈ bs, blockHash hasher p = k := by
      intro k hk
      by_contra hnone
      push Not at hnone
      rw [(hacc.look_none k).mpr ⟨look_new config k, hnone⟩] at hk
      obtain ⟨n, hn⟩ := hk
      cases hn
    refine parentsFirst_snoc.mpr ⟨ih hbs, ?_⟩
    rcases insertBlock_cases hasher sampler fc' b with
      ⟨hc, -⟩ | ⟨e, -, -, hr⟩ | ⟨ctx, score, -, hctx, -, -⟩
    · -- a second record of a header has the parent of the first
      obtain ⟨p, hp, hhash⟩ := hmem _ ((containsBlock_iff _).mp hc)
      have hheader := hdistinct p b (hbs p hp) (hB b (by simp)) hhash
      obtain ⟨before, after, rfl⟩ := List.append_of_mem hp
      rw [← hheader]
      rcases ih hbs before p after rfl with hz | ⟨q, hq, hparent⟩
      · exact .inl hz
      · exact .inr ⟨q, by simp [hq], hparent⟩
    · rw [hr] at hins
      cases hins
    · rcases parentContext_ok hctx with ⟨hz, -⟩ | ⟨-, p, hp, -⟩
      · exact .inl hz
      · exact .inr (hmem _ ⟨p, hp⟩)

/-! ### Loading -/

lemma lineBlock_of_blank {line : Str} (h : isBlank line = true) :
    lineBlock hasher addr line = none := by
  unfold lineBlock
  split
  · next b hd =>
    rw [isBlank_eq_false_of_decode hd] at h
    cases h
  · rfl

/-- **Loading inserts the blocks of the lines.** -/
theorem loadLines_accepted {complete : Bool} {ls : List Str} {n : ℕ} {s s' : Loaded}
    (h : loadLines hasher sampler addr config complete n ls s = .ok s') :
    Accepted hasher sampler s.forkChoice (ls.filterMap (lineBlock hasher addr)) s'.forkChoice := by
  induction ls generalizing n s with
  | nil =>
    cases h
    exact .nil
  | cons line ls ih =>
    rw [loadLines] at h
    split at h
    · next hblank =>
      rw [List.filterMap_cons_none (lineBlock_of_blank hblank)]
      exact ih h
    · split at h
      · next decoded hd =>
        split at h
        · cases h
        · next s₁ hload =>
          cases decoded with
          | header fingerprint =>
            have hline : lineBlock hasher addr line = none := by simp [lineBlock, hd]
            rw [List.filterMap_cons_none hline, ← loadHeader_forkChoice hload]
            exact ih h
          | block b =>
            have hline : lineBlock hasher addr line = some b := by simp [lineBlock, hd]
            obtain ⟨hash, hins⟩ := loadBlock_ok hload
            rw [List.filterMap_cons_some hline]
            exact .append (.snoc .nil hins) (ih h)
      · next e hd =>
        have hline : lineBlock hasher addr line = none := by simp [lineBlock, hd]
        split at h
        · next hlast =>
          cases h
          rw [Bool.and_eq_true, List.isEmpty_iff] at hlast
          rw [List.filterMap_cons_none hline, hlast.2]
          exact .nil
        · cases h

lemma loadContent_accepted {text : Str} {s : Loaded}
    (h : loadContent hasher sampler addr config text = .ok s) :
    Accepted hasher sampler (new config) (loggedBlocks hasher addr text) s.forkChoice :=
  loadLines_accepted h

lemma loadContent_tree {text : Str} {s : Loaded}
    (h : loadContent hasher sampler addr config text = .ok s) :
    Tree hasher sampler s.forkChoice ∧ s.forkChoice.config = config :=
  loadLines_tree (⟨Tree.new hasher sampler config, rfl⟩ :
    LoadedTree hasher sampler config (Loaded.init config)) h

/-- Loading a log in two parts, neither of which ends in an incomplete line. -/
lemma loadLines_append (ls ls' : List Str) (n : ℕ) (s : Loaded) :
    loadLines hasher sampler addr config true n (ls ++ ls') s =
      (loadLines hasher sampler addr config true n ls s).bind
        (loadLines hasher sampler addr config true (n + ls.length) ls') := by
  induction ls generalizing n s with
  | nil => rfl
  | cons line ls ih =>
    have hn : n + (line :: ls).length = n + 1 + ls.length := by
      rw [List.length_cons]
      omega
    rw [List.cons_append, loadLines, loadLines, hn]
    split
    · exact ih (n + 1) s
    · cases decodeStorageLine hasher addr line with
      | error e => rfl
      | ok decoded =>
        simp only
        cases loadLine hasher sampler config n decoded s with
        | error e => rfl
        | ok s₁ => exact ih (n + 1) s₁

/-- The file of a log that loads, in terms of its text. -/
lemma loadChains_ok_iff {file : Option Bytes} {text : Str} {chain : ChainState}
    (htext : fromUtf8 (file.getD []) = some text) :
    loadChains hasher sampler addr file config = .ok (chain, fc) ↔
      ∃ s, loadContent hasher sampler addr config text = .ok s ∧ s.forkChoice = fc ∧
        chain = view fc := by
  have hview : ∀ s, loadContent hasher sampler addr config text = .ok s →
      chainFromBlocks hasher sampler config s.forkChoice.bestChain =
        .ok (view s.forkChoice) := by
    intro s hload
    obtain ⟨htree, hconfig⟩ := loadContent_tree hload
    rw [← hconfig]
    exact chainFromBlocks_bestChain htree
  cases file with
  | none =>
    have hempty : text = [] := by
      have hnil : fromUtf8 [] = some ([] : Str) := fromUtf8_utf8 []
      rw [Option.getD_none, hnil] at htext
      exact (Option.some.inj htext).symm
    subst hempty
    have hload : loadContent hasher sampler addr config [] = .ok (Loaded.init config) := rfl
    rw [hload]
    refine ⟨fun h => ⟨_, rfl, ?_⟩, ?_⟩
    · cases h
      exact ⟨rfl, rfl⟩
    · rintro ⟨s, hs, rfl, rfl⟩
      cases hs
      rfl
  | some bytes =>
    rw [Option.getD_some] at htext
    simp only [loadChains, htext]
    cases hload : loadContent hasher sampler addr config text with
    | error e =>
      refine ⟨fun h => (nomatch h), ?_⟩
      rintro ⟨s, hs, -⟩
      cases hs
    | ok s =>
      simp only [hview s hload]
      refine ⟨fun h => ⟨s, rfl, ?_⟩, ?_⟩
      · cases h
        exact ⟨rfl, rfl⟩
      · rintro ⟨s', hs, rfl, rfl⟩
        cases hs
        rfl

/-! ### Appending to a complete log -/

/-- A log whose last line is complete, with what it loads. -/
def Loads (hasher : HashPort) (sampler : SamplingPort) (addr : AddrText) (config : ChainConfig)
    (text : Str) (s : Loaded) : Prop :=
  HasCompleteTail text ∧ loadContent hasher sampler addr config text = .ok s

lemma loadContent_complete {text : Str} (h : HasCompleteTail text) :
    loadContent hasher sampler addr config text =
      loadLines hasher sampler addr config true 1 (lines text) (Loaded.init config) := by
  rw [loadContent, decide_eq_true h]

/-- **Loading a log with one more entry** is loading the log and inserting the block. -/
theorem loadContent_entry {text : Str} {s : Loaded}
    (h : Loads hasher sampler addr config text s) (block : Block)
    (hheader : shouldWriteHeader = true → text = []) :
    ∃ n, loadContent hasher sampler addr config
        (text ++ entryText hasher config block shouldWriteHeader) =
      loadBlock hasher sampler n block
        { s with seenHeader := shouldWriteHeader || s.seenHeader } := by
  have htail : HasCompleteTail (text ++ entryText hasher config block shouldWriteHeader) :=
    hasCompleteTail_append entryText_getLast
  have hblank : isBlank (encodeStorageRecord hasher block) = false :=
    isBlank_eq_false_of_decode (decodeStorageLine_record hasher addr block)
  have hrecord : ∀ n s, loadLines hasher sampler addr config true n
      [encodeStorageRecord hasher block] s = loadBlock hasher sampler n block s := by
    intro n s
    rw [loadLines, hblank, decodeStorageLine_record]
    simp only [Bool.false_eq_true, if_false, loadLine]
    cases loadBlock hasher sampler n block s <;> rfl
  have hload := h.2
  rw [loadContent_complete h.1] at hload
  rw [loadContent_complete htail, lines_append h.1, loadLines_append, hload, lines_entryText]
  cases shouldWriteHeader with
  | false => exact ⟨_, hrecord _ _⟩
  | true =>
    have hempty := hheader rfl
    subst hempty
    cases hload
    have hblank' : isBlank (encodeStorageHeader hasher config) = false :=
      isBlank_eq_false_of_decode (decodeStorageLine_header hasher addr config)
    have hfirst : loadLines hasher sampler addr config true 1
        [encodeStorageHeader hasher config] (Loaded.init config) =
          .ok { Loaded.init config with seenHeader := true } := by
      rw [loadLines, hblank', decodeStorageLine_header]
      simp [loadLine, loadHeader, Loaded.init, loadLines]
    refine ⟨2, ?_⟩
    change loadLines hasher sampler addr config true 1
      ([encodeStorageHeader hasher config] ++ [encodeStorageRecord hasher block]) _ = _
    rw [loadLines_append, hfirst]
    exact hrecord _ _

/-- An entry whose block is accepted. -/
lemma Loads.entry {text : Str} {s : Loaded} {hash : Digest}
    (h : Loads hasher sampler addr config text s)
    (hheader : shouldWriteHeader = true → text = [])
    (hins : s.forkChoice.insertBlock hasher sampler block = (.ok hash, fc')) :
    ∃ s', Loads hasher sampler addr config
      (text ++ entryText hasher config block shouldWriteHeader) s' ∧ s'.forkChoice = fc' := by
  obtain ⟨n, hload⟩ := loadContent_entry h block hheader
  refine ⟨⟨fc', shouldWriteHeader || s.seenHeader, true⟩,
    ⟨hasCompleteTail_append entryText_getLast, ?_⟩, rfl⟩
  rw [hload, loadBlock]
  simp only [hins]

/-! ### Appending to an incomplete log -/

/-- A record has been appended to an incomplete line. -/
def Merged (hasher : HashPort) (text : Str) : Prop :=
  HasCompleteTail text ∧ ∃ start x b rest, HasCompleteTail start ∧ x ≠ [] ∧ '\n' ∉ x ∧
    text = start ++ ((x ++ encodeStorageRecord hasher b ++ ['\n']) ++ rest)

/-- An append to an incomplete log merges. -/
lemma merged_entry {text : Str} (h : ¬ HasCompleteTail text) :
    Merged hasher (text ++ entryText hasher config block false) := by
  obtain ⟨start, x, rfl, hstart, hx⟩ := exists_lastLine text
  refine ⟨hasCompleteTail_append entryText_getLast, start, x, block, [], hstart, ?_, hx, ?_⟩
  · rintro rfl
    exact h (by rwa [List.append_nil])
  · simp [entryText]

lemma Merged.entry {text : Str} (h : Merged hasher text) :
    Merged hasher (text ++ entryText hasher config block shouldWriteHeader) := by
  obtain ⟨-, start, x, b, rest, hstart, hne, hx, rfl⟩ := h
  refine ⟨hasCompleteTail_append entryText_getLast, start, x, b,
    rest ++ entryText hasher config block shouldWriteHeader, hstart, hne, hx, ?_⟩
  simp only [List.append_assoc]

/-- **A merged log does not load.** -/
theorem Merged.not_loads {text : Str} (h : Merged hasher text) (sampler : SamplingPort)
    (addr : AddrText) (config : ChainConfig) :
    ∃ e, loadContent hasher sampler addr config text = .error e := by
  obtain ⟨htail, start, x, b, rest, hstart, hne, hx, rfl⟩ := h
  have hrecord := encodeStorageRecord_subset hasher b
  have hbar : '|' ∈ x ++ encodeStorageRecord hasher b :=
    List.mem_append_right _ (bar_mem_encodeStorageRecord b)
  have hn : '\n' ∉ x ++ encodeStorageRecord hasher b := by
    rw [List.mem_append, not_or]
    exact ⟨hx, fun hm => absurd (hrecord hm) (by decide)⟩
  have hr : (x ++ encodeStorageRecord hasher b).getLast? ≠ some '\r' := by
    have hnil : encodeStorageRecord hasher b ≠ [] :=
      List.ne_nil_of_mem (bar_mem_encodeStorageRecord b)
    rw [List.getLast?_append_of_ne_nil _ hnil]
    exact fun hlast => absurd (hrecord (List.mem_of_getLast? hlast)) (by decide)
  have hline : HasCompleteTail (x ++ encodeStorageRecord hasher b ++ ['\n']) := .inr (by simp)
  rw [loadContent_complete htail, lines_append hstart, lines_append hline, lines_line hn hr,
    loadLines_append]
  cases loadLines hasher sampler addr config true 1 (lines start) (Loaded.init config) with
  | error e => exact ⟨e, rfl⟩
  | ok s =>
    simp only [Except.bind, List.singleton_append]
    rw [loadLines, isBlank_eq_false_of_bar hbar]
    rcases decodeStorageLine_merged hasher addr hne b with
      ⟨e, he⟩ | ⟨fingerprint, hfingerprint, hd⟩
    · rw [he]
      exact ⟨_, rfl⟩
    · have hother : fingerprint ≠ chainFingerprint config := by
        rintro rfl
        exact bar_notMem_chainFingerprint config hfingerprint
      rw [hd]
      simp only [Bool.false_eq_true, if_false, loadLine, loadHeader]
      split_ifs <;> exact ⟨_, rfl⟩

end Chesscoin.LogReplay

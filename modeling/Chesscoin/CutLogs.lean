import Chesscoin.LogReplay

/-!
Logs that were cut at any byte.

A cut leaves whole lines, the last of which may have lost its newline, and then perhaps a part
of a line. Loading what is left is inserting the blocks of the whole lines and then reading the
part, which is the last line and has no newline. How a block is written on its line does not
matter for this.
-/

namespace Chesscoin.CutLogs

open Chesscoin.Lib.ByteString Chesscoin.Lib.Text Chesscoin.Domain Chesscoin.Simulator
  Chesscoin.Validation Chesscoin.ForkChoice Chesscoin.Wire Chesscoin.Storage Chesscoin.LogLines
  Chesscoin.LogReplay

variable {hasher : HashPort} {sampler : SamplingPort} {addr : AddrText} {config : ChainConfig}
  {encode : Block → Str} {before : Str} {b : Block} {bs : List Block} {t : ℕ} {s : Loaded}
  {complete : Bool} {lineNumber : ℕ} {fc fc' : ForkChoiceState}

/-! ### Lines of blocks -/

/-- The lines of the blocks are read as the blocks. -/
structure LineCodec (hasher : HashPort) (addr : AddrText) (encode : Block → Str) : Prop where
  read : ∀ b, decodeStorageLine hasher addr (encode b) = .ok (.block b)
  subset : ∀ b, encode b ⊆ lineAlphabet

def blockLines (encode : Block → Str) (bs : List Block) : Str :=
  bs.flatMap fun b => encode b ++ ['\n']

lemma newline_notMem_line {l : Str} (h : l ⊆ lineAlphabet) : '\n' ∉ l := fun hm =>
  absurd (h hm) (by decide)

lemma return_notLast_line {l : Str} (h : l ⊆ lineAlphabet) : l.getLast? ≠ some '\r' := fun hlast =>
  absurd (h (List.mem_of_getLast? hlast)) (by decide)

lemma utf8_line_length {l : Str} (h : l ⊆ lineAlphabet) : (utf8 l).length = l.length :=
  utf8_length_ascii (lineAlphabet_ascii.mono h)

lemma LineCodec.ne_nil (h : LineCodec hasher addr encode) (b : Block) : encode b ≠ [] :=
  List.ne_nil_of_mem (bar_mem_of_decode (h.read b))

lemma blockLines_cons (b : Block) (bs : List Block) :
    blockLines encode (b :: bs) = encode b ++ '\n' :: blockLines encode bs := by
  simp [blockLines]

lemma blockLines_ascii (h : LineCodec hasher addr encode) (bs : List Block) :
    Ascii (blockLines encode bs) := by
  intro c hc
  obtain ⟨b, -, hc⟩ := List.mem_flatMap.mp hc
  refine (lineAlphabet_ascii.mono (h.subset b)).append ?_ c hc
  simp [Ascii]

/-! ### What a cut leaves -/

/-- How many lines lie within the first `t` bytes of a log that has some text before them, with
or without their newline. -/
def linesWithin (encode : Block → Str) (before : Str) (bs : List Block) (t : ℕ) : ℕ :=
  (List.range bs.length).countP fun i =>
    (utf8 (before ++ blockLines encode (bs.take (i + 1)))).length ≤ t + 1

/-- What is left behind these lines. -/
def tornLine (encode : Block → Str) (before : Str) (bs : List Block) (t : ℕ) : Str :=
  let count := linesWithin encode before bs t
  (blockLines encode (bs.drop count)).take
    (t - (utf8 (before ++ blockLines encode (bs.take count))).length)

lemma utf8_lines_length (before : Str) (b : Block) (bs : List Block) :
    (utf8 (before ++ blockLines encode (b :: bs))).length =
      (utf8 (before ++ encode b)).length + 1 + (utf8 (blockLines encode bs)).length := by
  have hnewline : (utf8 ['\n']).length = 1 := rfl
  simp only [blockLines, List.flatMap_cons, utf8_append, List.length_append, hnewline]
  omega

lemma before_lines_cons (before : Str) (b : Block) (bs : List Block) :
    before ++ blockLines encode (b :: bs) =
      (before ++ (encode b ++ ['\n'])) ++ blockLines encode bs := by
  simp [blockLines]

lemma linesWithin_cons (before : Str) (b : Block) (bs : List Block) (t : ℕ) :
    linesWithin encode before (b :: bs) t =
      if (utf8 (before ++ encode b)).length ≤ t then
        linesWithin encode (before ++ (encode b ++ ['\n'])) bs t + 1
      else 0 := by
  have hzero : (utf8 (before ++ blockLines encode ((b :: bs).take (0 + 1)))).length ≤ t + 1 ↔
      (utf8 (before ++ encode b)).length ≤ t := by
    have hnil : (utf8 (blockLines encode [])).length = 0 := rfl
    rw [List.take_succ_cons, List.take_zero, utf8_lines_length, hnil, Nat.add_zero]
    exact Nat.add_le_add_iff_right
  rw [linesWithin, List.length_cons, List.range_succ_eq_map, List.countP_cons, List.countP_map]
  simp only [hzero, decide_eq_true_eq]
  by_cases hfits : (utf8 (before ++ encode b)).length ≤ t
  · rw [if_pos hfits, if_pos hfits]
    refine congrArg (· + 1) (List.countP_congr fun i _ => ?_)
    simp only [Function.comp_apply, List.take_succ_cons, before_lines_cons]
  · rw [if_neg hfits, if_neg hfits, List.countP_eq_zero.mpr]
    intro i _
    simp only [Function.comp_apply, List.take_succ_cons, utf8_lines_length, decide_eq_true_eq]
    omega

lemma linesWithin_eq_zero (h : t < (utf8 before).length) :
    linesWithin encode before bs t = 0 := by
  cases bs with
  | nil => rfl
  | cons b bs =>
    rw [linesWithin_cons, if_neg]
    rw [utf8_append, List.length_append]
    omega

lemma tornLine_fits (h : (utf8 (before ++ encode b)).length ≤ t) :
    tornLine encode before (b :: bs) t =
      tornLine encode (before ++ (encode b ++ ['\n'])) bs t := by
  have hcount : linesWithin encode before (b :: bs) t = _ := linesWithin_cons before b bs t
  rw [if_pos h] at hcount
  rw [tornLine, tornLine]
  simp only [hcount, List.drop_succ_cons, List.take_succ_cons, before_lines_cons]

lemma tornLine_long (h : ¬(utf8 (before ++ encode b)).length ≤ t)
    (hb : (utf8 (encode b)).length = (encode b).length) :
    tornLine encode before (b :: bs) t = (encode b).take (t - (utf8 before).length) := by
  have hcount : linesWithin encode before (b :: bs) t = _ := linesWithin_cons before b bs t
  rw [if_neg h] at hcount
  rw [utf8_append, List.length_append, hb] at h
  have hnil : before ++ blockLines encode [] = before := List.append_nil before
  rw [tornLine]
  simp only [hcount, List.drop_zero, List.take_zero, hnil]
  rw [blockLines_cons, List.take_append_of_le_length (by omega)]

/-! ### Loading what is left -/

/-- A last line that cannot be read and has no newline changes nothing. -/
lemma loadLines_part {line : Str} (h : ∃ e, decodeStorageLine hasher addr line = .error e) :
    loadLines hasher sampler addr config false lineNumber [line] s = .ok s := by
  obtain ⟨e, he⟩ := h
  rw [loadLines, he]
  split <;> rfl

lemma loadLines_line {line : Str} {rest : List Str} {fc₁ : ForkChoiceState} {hash : Digest}
    (hread : decodeStorageLine hasher addr line = .ok (.block b))
    (hins : s.forkChoice.insertBlock hasher sampler b = (.ok hash, fc₁)) :
    loadLines hasher sampler addr config complete lineNumber (line :: rest) s =
      loadLines hasher sampler addr config complete (lineNumber + 1) rest
        ⟨fc₁, s.seenHeader, true⟩ := by
  rw [loadLines, isBlank_eq_false_of_decode hread, hread]
  simp only [Bool.false_eq_true, if_false, loadLine, loadBlock, hins]

lemma notMem_take {c : Char} {s : Str} (h : c ∉ s) (n : ℕ) : c ∉ s.take n := fun hmem =>
  h (List.mem_of_mem_take hmem)

/-- The log is cut within its first line. -/
lemma loadLines_take_within {l rest : Str} (hn : '\n' ∉ l) (ht : t < l.length)
    (hcomplete : complete = true → HasCompleteTail ((l ++ '\n' :: rest).take t)) :
    loadLines hasher sampler addr config complete lineNumber (lines ((l ++ '\n' :: rest).take t))
        s =
      if t = 0 then .ok s
      else loadLines hasher sampler addr config false lineNumber [l.take t] s := by
  by_cases hzero : t = 0
  · subst hzero
    rfl
  · have hincomplete : complete = false := by
      rw [← Bool.not_eq_true]
      intro hflag
      have hwhole := hcomplete hflag
      rw [List.take_append_of_le_length ht.le] at hwhole
      refine not_hasCompleteTail (notMem_take hn t) (fun hnil => ?_) hwhole
      rcases List.take_eq_nil_iff.mp hnil with h0 | rfl
      · exact hzero h0
      · exact absurd ht (Nat.not_lt_zero t)
    rw [hincomplete, lines_take_within hn ht.le hzero, if_neg hzero]

lemma hasCompleteTail_behind {l rest : Str}
    (h : HasCompleteTail ((l ++ '\n' :: rest).take t)) :
    HasCompleteTail (rest.take (t - (l.length + 1))) := by
  have hsplit : l ++ '\n' :: rest = (l ++ ['\n']) ++ rest := by simp
  rw [hsplit, List.take_append, List.length_append, List.length_singleton] at h
  exact h.of_append

/-- What there is to load of a cut log after its whole lines have brought it to the state `s'`:
nothing, or a part of the line of the next block. -/
inductive Remains (hasher : HashPort) (sampler : SamplingPort) (addr : AddrText)
    (config : ChainConfig) (encode : Block → Str) (torn : Str) (next : Option Block)
    (s' : Loaded) (loaded : Except LoadError Loaded) : Prop
  | nothing : torn = [] → loaded = .ok s' →
      Remains hasher sampler addr config encode torn next s' loaded
  | part (b : Block) (r lineNumber : ℕ) : next = some b → r < (encode b).length →
      torn = (encode b).take r →
      loaded = loadLines hasher sampler addr config false lineNumber [torn] s' →
      Remains hasher sampler addr config encode torn next s' loaded

/-- **Loading the lines of a cut log.** -/
theorem loadLines_take (h : LineCodec hasher addr encode) (before : Str)
    (hacc : Accepted hasher sampler s.forkChoice bs fc')
    (hcomplete : complete = true →
      HasCompleteTail ((blockLines encode bs).take (t - (utf8 before).length))) :
    ∃ s', Accepted hasher sampler s.forkChoice (bs.take (linesWithin encode before bs t))
        s'.forkChoice ∧
      Remains hasher sampler addr config encode (tornLine encode before bs t)
        (bs.drop (linesWithin encode before bs t)).head? s'
        (loadLines hasher sampler addr config complete lineNumber
          (lines ((blockLines encode bs).take (t - (utf8 before).length))) s) := by
  induction bs generalizing before s lineNumber with
  | nil =>
    have hnil : blockLines encode [] = [] := rfl
    refine ⟨s, .nil, .nothing ?_ ?_⟩
    · rw [tornLine, List.drop_nil, hnil, List.take_nil]
    · rw [hnil, List.take_nil]
      rfl
  | cons b bs ih =>
    obtain ⟨hash, fc₁, hins, hrest⟩ := hacc.cons_inv
    have hn := newline_notMem_line (h.subset b)
    have hlen : (utf8 (encode b)).length = (encode b).length := utf8_line_length (h.subset b)
    have hline : (utf8 (before ++ encode b)).length = (utf8 before).length + (encode b).length := by
      rw [utf8_append, List.length_append, hlen]
    rw [blockLines_cons] at hcomplete ⊢
    by_cases hfits : (utf8 (before ++ encode b)).length ≤ t
    · have hbehind : t - (utf8 before).length - ((encode b).length + 1) =
          t - (utf8 (before ++ (encode b ++ ['\n']))).length := by
        have hnewline : (utf8 ['\n']).length = 1 := rfl
        simp only [utf8_append, List.length_append, hlen, hnewline]
        omega
      have hcomplete' := fun hflag => hasCompleteTail_behind (hcomplete hflag)
      rw [hbehind] at hcomplete'
      obtain ⟨s', hacc', hremains⟩ := ih (s := ⟨fc₁, s.seenHeader, true⟩)
        (before ++ (encode b ++ ['\n'])) hrest hcomplete'
      rw [linesWithin_cons, if_pos hfits, tornLine_fits hfits, List.take_succ_cons,
        List.drop_succ_cons,
        lines_take_behind hn (return_notLast_line (h.subset b)) (h.ne_nil b) (by omega),
        loadLines_line (h.read b) hins, hbehind]
      exact ⟨s', Accepted.append (.snoc .nil hins) hacc', hremains⟩
    · have hpos : 0 < (encode b).length := List.length_pos_iff.mpr (h.ne_nil b)
      have hpart : t - (utf8 before).length < (encode b).length := by omega
      rw [linesWithin_cons, if_neg hfits, tornLine_long hfits hlen, List.take_zero, List.drop_zero,
        loadLines_take_within hn hpart hcomplete]
      refine ⟨s, .nil, ?_⟩
      by_cases hzero : t - (utf8 before).length = 0
      · rw [if_pos hzero, hzero]
        exact .nothing rfl rfl
      · rw [if_neg hzero]
        exact .part b _ lineNumber rfl hpart rfl rfl

end Chesscoin.CutLogs

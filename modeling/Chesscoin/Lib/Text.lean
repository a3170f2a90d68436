import Mathlib.Data.List.DropRight
import Mathlib.Data.List.Basic
import Mathlib.Tactic.IntervalCases
import Chesscoin.Lib.ByteString

/-!
Text as lists of characters: its UTF-8 bytes, fields between separators, lines, and
decimal numerals.

A text format is read back by cutting at separators, so what a field may contain is what
matters: every round trip below asks that the pieces avoid the separator, and an alphabet
(a list of characters a text is drawn from) is how that is known.
-/

namespace Chesscoin.Lib.Text

open Chesscoin.Lib.ByteString

abbrev Str := List Char

/-! ### UTF-8 -/

def utf8 (s : Str) : Bytes := s.flatMap String.utf8EncodeChar

/-- The text a byte string spells, if it is valid UTF-8. -/
def fromUtf8 (b : Bytes) : Option Str := (b.toByteArray.utf8Decode?).map Array.toList

@[simp] lemma utf8_nil : utf8 [] = [] := rfl

lemma utf8_cons (c : Char) (s : Str) : utf8 (c :: s) = String.utf8EncodeChar c ++ utf8 s := rfl

lemma utf8_append (s t : Str) : utf8 (s ++ t) = utf8 s ++ utf8 t := by
  simp [utf8]

@[simp] lemma fromUtf8_utf8 (s : Str) : fromUtf8 (utf8 s) = some s := by
  have h : (utf8 s).toByteArray = s.utf8Encode := rfl
  rw [fromUtf8, h, List.utf8Decode?_utf8Encode]
  rfl

lemma utf8_of_fromUtf8 {b : Bytes} {s : Str} (h : fromUtf8 b = some s) : utf8 s = b := by
  unfold fromUtf8 at h
  obtain ⟨a, ha, rfl⟩ := Option.map_eq_some_iff.mp h
  have hs : (b.toByteArray.utf8Decode?).isSome := by rw [ha]; rfl
  have henc := ByteArray.utf8Encode_get_utf8Decode? (h := hs)
  have hget : (b.toByteArray.utf8Decode?).get hs = a := by simp [ha]
  rw [hget] at henc
  have hbytes : (utf8 a.toList).toByteArray = b.toByteArray := henc
  have := congrArg (fun x => x.data.toList) hbytes
  simpa using this

/-- Every character is one byte. -/
def Ascii (s : Str) : Prop := ∀ c ∈ s, c.toNat < 128

lemma utf8EncodeChar_ascii {c : Char} (h : c.toNat < 128) :
    String.utf8EncodeChar c = [UInt8.ofNat c.toNat] := by
  have hv : c.val ≤ 0x7f := by
    rw [UInt32.le_iff_toNat_le]; show c.toNat ≤ 127; omega
  rw [String.utf8EncodeChar_eq_utf8EncodeCharFast]
  simp only [String.utf8EncodeCharFast, hv, if_true]
  rfl

lemma utf8_ascii {s : Str} (h : Ascii s) : utf8 s = s.map fun c => UInt8.ofNat c.toNat := by
  induction s with
  | nil => rfl
  | cons c s ih =>
    have hc := utf8EncodeChar_ascii (h c (by simp))
    have hs := ih fun d hd => h d (by simp [hd])
    rw [utf8_cons, hc, hs]
    rfl

/-- Cutting an ASCII text at a byte is cutting it at a character. -/
lemma take_utf8_ascii {s : Str} (h : Ascii s) (n : ℕ) : (utf8 s).take n = utf8 (s.take n) := by
  rw [utf8_ascii h, utf8_ascii fun c hc => h c (List.mem_of_mem_take hc), List.map_take]

lemma utf8_length_ascii {s : Str} (h : Ascii s) : (utf8 s).length = s.length := by
  rw [utf8_ascii h, List.length_map]

/-- A character that is not ASCII is written in bytes that are not. -/
lemma le_of_mem_utf8EncodeChar {c : Char} (h : 128 ≤ c.toNat) {b : UInt8}
    (hb : b ∈ String.utf8EncodeChar c) : 128 ≤ b.toNat := by
  have hv : ¬ c.val.toNat ≤ 0x7f := by
    show ¬ c.toNat ≤ 0x7f
    omega
  simp only [String.utf8EncodeChar, hv, if_false] at hb
  split at hb
  · simp only [List.mem_cons, List.not_mem_nil, or_false] at hb
    rcases hb with rfl | rfl <;> rw [UInt8.toNat_ofNat'] <;> omega
  · split at hb
    · simp only [List.mem_cons, List.not_mem_nil, or_false] at hb
      rcases hb with rfl | rfl | rfl <;> rw [UInt8.toNat_ofNat'] <;> omega
    · simp only [List.mem_cons, List.not_mem_nil, or_false] at hb
      rcases hb with rfl | rfl | rfl | rfl <;> rw [UInt8.toNat_ofNat'] <;> omega

lemma utf8EncodeChar_length_pos (c : Char) : 1 ≤ (String.utf8EncodeChar c).length := by
  rw [String.length_utf8EncodeChar]
  exact c.utf8Size_pos

lemma utf8EncodeChar_length_nonascii {c : Char} (h : 128 ≤ c.toNat) :
    2 ≤ (String.utf8EncodeChar c).length := by
  have hv : ¬ c.val.toNat ≤ 0x7f := by
    show ¬ c.toNat ≤ 0x7f
    omega
  simp only [String.utf8EncodeChar, hv, if_false]
  split
  · simp
  · split <;> simp

lemma length_le_utf8_length (s : Str) : s.length ≤ (utf8 s).length := by
  induction s with
  | nil => exact le_rfl
  | cons c s ih =>
    have hc := utf8EncodeChar_length_pos c
    rw [utf8_cons, List.length_append, List.length_cons]
    omega

/-- **A text has as many bytes as characters exactly when it is ASCII.** -/
theorem utf8_length_eq_iff (s : Str) : (utf8 s).length = s.length ↔ Ascii s := by
  refine ⟨fun h => ?_, utf8_length_ascii⟩
  induction s with
  | nil => exact fun c hc => nomatch hc
  | cons c s ih =>
    have hc := utf8EncodeChar_length_pos c
    have hs := length_le_utf8_length s
    rw [utf8_cons, List.length_append, List.length_cons] at h
    have htail := ih (by omega)
    intro d hd
    rcases List.mem_cons.mp hd with rfl | hd
    · by_contra hge
      have := utf8EncodeChar_length_nonascii (c := d) (by omega)
      omega
    · exact htail d hd

/-- A newline byte is a newline character. -/
lemma newline_notMem_utf8 {s : Str} (h : '\n' ∉ s) : (10 : UInt8) ∉ utf8 s := by
  intro hmem
  obtain ⟨c, hc, hb⟩ := List.mem_flatMap.mp hmem
  rcases Nat.lt_or_ge c.toNat 128 with hlt | hge
  · rw [utf8EncodeChar_ascii hlt, List.mem_singleton] at hb
    have hnum : c.toNat = 10 := by
      have htoNat := congrArg UInt8.toNat hb
      simp only [UInt8.toNat_ofNat'] at htoNat
      have hsmall : c.toNat % 2 ^ 8 = c.toNat := Nat.mod_eq_of_lt (by omega)
      rw [hsmall] at htoNat
      exact htoNat.symm
    have hchar : c = '\n' := Char.toNat_inj.mp hnum
    exact h (hchar ▸ hc)
  · have hle := le_of_mem_utf8EncodeChar hge hb
    exact absurd hle (by decide)

lemma Ascii.append {s t : Str} (hs : Ascii s) (ht : Ascii t) : Ascii (s ++ t) := by
  intro c hc
  rcases List.mem_append.mp hc with h | h
  · exact hs c h
  · exact ht c h

lemma Ascii.mono {s A : Str} (h : s ⊆ A) (hA : Ascii A) : Ascii s := fun c hc => hA c (h hc)

/-! ### White space -/

/-- The white space characters of Unicode. -/
def isWhiteSpace (c : Char) : Bool :=
  let n := c.toNat
  (9 ≤ n && n ≤ 13) || n == 0x20 || n == 0x85 || n == 0xa0 || n == 0x1680 ||
    (0x2000 ≤ n && n ≤ 0x200a) || n == 0x2028 || n == 0x2029 || n == 0x202f || n == 0x205f ||
    n == 0x3000

def isBlank (line : Str) : Bool := line.all isWhiteSpace

/-! ### Fields between separators -/

lemma intercalate_cons_cons (sep : Char) (a b : Str) (l : List Str) :
    [sep].intercalate (a :: b :: l) = a ++ sep :: [sep].intercalate (b :: l) := by
  simp [List.intercalate]

lemma intercalate_subset {A : Str} {sep : Char} {l : List Str} (hsep : sep ∈ A)
    (h : ∀ s ∈ l, s ⊆ A) : [sep].intercalate l ⊆ A := by
  induction l with
  | nil => simp [List.intercalate]
  | cons a l ih =>
    cases l with
    | nil => simpa [List.intercalate] using h a (by simp)
    | cons b l =>
      rw [intercalate_cons_cons]
      refine List.append_subset.mpr ⟨h a (by simp), List.cons_subset.mpr ⟨hsep, ?_⟩⟩
      exact ih fun s hs => h s (by simp [hs])

/-- Joining and then splitting a list of pieces, when no piece has the separator in it. The
empty list is the one list that is not read back: it is joined to the empty text, which
is one empty piece. -/
lemma splitOn_intercalate {A : Str} {sep : Char} {l : List Str} (hsep : sep ∉ A)
    (h : ∀ s ∈ l, s ⊆ A) (hl : l ≠ []) : List.splitOn sep ([sep].intercalate l) = l :=
  List.splitOn_intercalate sep (fun s hs hmem => hsep (h s hs hmem)) hl

/-- The pieces are one more than the separators. -/
lemma length_splitOn (sep : Char) (s : Str) : (s.splitOn sep).length = s.count sep + 1 := by
  induction s with
  | nil => simp
  | cons c s ih =>
    rw [List.splitOn_cons_eq_if_modifyHead, List.count_cons]
    by_cases h : c = sep
    · simp [h, ih]
    · simp [h, ih]

/-- At most `n` pieces, the last one holding whatever is left. -/
def splitn : ℕ → Char → Str → List Str
  | 0, _, _ => []
  | 1, _, s => [s]
  | n + 2, sep, s =>
    if sep ∈ s then s.takeWhile (· ≠ sep) :: splitn (n + 1) sep (s.dropWhile (· ≠ sep)).tail
    else [s]

lemma splitn_append {n : ℕ} {sep : Char} {a s : Str} (h : sep ∉ a) :
    splitn (n + 2) sep (a ++ sep :: s) = a :: splitn (n + 1) sep s := by
  have ha : ∀ x ∈ a, decide (x ≠ sep) = true := by
    intro x hx
    have hne : x ≠ sep := by rintro rfl; exact h hx
    simpa using hne
  rw [splitn, if_pos (by simp), List.takeWhile_append_of_pos ha, List.dropWhile_append_of_pos ha]
  simp

lemma splitn_of_notMem {n : ℕ} {sep : Char} {s : Str} (h : sep ∉ s) :
    splitn (n + 1) sep s = [s] := by
  cases n with
  | zero => rfl
  | succ n => rw [splitn, if_neg h]

/-- A first field is known by the separator after it. -/
lemma field_inj {sep : Char} {a a' s s' : Str} (h : sep ∉ a) (h' : sep ∉ a')
    (heq : a ++ sep :: s = a' ++ sep :: s') : a = a' ∧ s = s' := by
  have hcut := congrArg (splitn 2 sep) heq
  rw [splitn_append h, splitn_append h', splitn, splitn, List.cons.injEq, List.cons.injEq] at hcut
  exact ⟨hcut.1, hcut.2.1⟩

/-! ### Lines -/

/-- The lines of a text, each with the newline that ends it. -/
def splitInclusive : Str → List Str
  | [] => []
  | c :: s =>
    if c = '\n' then [c] :: splitInclusive s
    else match splitInclusive s with
      | [] => [[c]]
      | l :: ls => (c :: l) :: ls

/-- A line without its newline, and without the carriage return before it. -/
def stripEnding (l : Str) : Str :=
  if l.getLast? = some '\n' then
    if l.dropLast.getLast? = some '\r' then l.dropLast.dropLast else l.dropLast
  else l

def lines (s : Str) : List Str := (splitInclusive s).map stripEnding

/-- The text is empty or its last line has its newline. -/
def HasCompleteTail (s : Str) : Prop := s = [] ∨ s.getLast? = some '\n'

instance (s : Str) : Decidable (HasCompleteTail s) :=
  inferInstanceAs (Decidable (_ ∨ _))

lemma hasCompleteTail_append {s t : Str} (ht : t.getLast? = some '\n') :
    HasCompleteTail (s ++ t) := by
  right
  rw [List.getLast?_append, ht]
  rfl

lemma HasCompleteTail.of_cons {c : Char} {s : Str} (h : HasCompleteTail (c :: s))
    (hs : s ≠ []) : HasCompleteTail s := by
  rcases h with h | h
  · cases h
  · right
    obtain ⟨d, t, rfl⟩ := List.exists_cons_of_ne_nil hs
    rwa [List.getLast?_cons_cons] at h

lemma splitInclusive_append {s t : Str} (h : HasCompleteTail s) :
    splitInclusive (s ++ t) = splitInclusive s ++ splitInclusive t := by
  induction s with
  | nil => rfl
  | cons c s ih =>
    by_cases hc : c = '\n'
    · have hs : splitInclusive (s ++ t) = splitInclusive s ++ splitInclusive t := by
        by_cases hs : s = []
        · subst hs; rfl
        · exact ih (h.of_cons hs)
      simp [splitInclusive, hc, hs]
    · have hs : s ≠ [] := by
        rintro rfl
        rcases h with h | h
        · cases h
        · exact hc (by simpa using h)
      have hne : splitInclusive s ≠ [] := by
        obtain ⟨d, u, rfl⟩ := List.exists_cons_of_ne_nil hs
        simp only [splitInclusive]
        split
        · simp
        · split <;> simp
      obtain ⟨l, ls, hl⟩ := List.exists_cons_of_ne_nil hne
      simp [splitInclusive, hc, ih (h.of_cons hs), hl]

/-- **Lines of a concatenation**, when the first text ends where a line ends. -/
theorem lines_append {s t : Str} (h : HasCompleteTail s) : lines (s ++ t) = lines s ++ lines t := by
  rw [lines, splitInclusive_append h, List.map_append]
  rfl

lemma splitInclusive_line {l : Str} (h : '\n' ∉ l) :
    splitInclusive (l ++ ['\n']) = [l ++ ['\n']] := by
  induction l with
  | nil => rfl
  | cons c l ih =>
    have hc : c ≠ '\n' := fun e => h (by simp [e])
    simp [splitInclusive, hc, ih fun hm => h (by simp [hm])]

/-- A complete line. -/
lemma lines_line {l : Str} (hn : '\n' ∉ l) (hr : l.getLast? ≠ some '\r') :
    lines (l ++ ['\n']) = [l] := by
  rw [lines, splitInclusive_line hn]
  simp [stripEnding, hr]

/-- A text is complete lines and then a line without its newline, which may be empty. -/
lemma exists_lastLine (s : Str) : ∃ start l, s = start ++ l ∧ HasCompleteTail start ∧ '\n' ∉ l := by
  induction s using List.reverseRecOn with
  | nil => exact ⟨[], [], rfl, .inl rfl, List.not_mem_nil⟩
  | append_singleton s c ih =>
    by_cases hc : c = '\n'
    · subst hc
      exact ⟨s ++ ['\n'], [], by simp, .inr (by simp), List.not_mem_nil⟩
    · obtain ⟨start, l, rfl, hstart, hl⟩ := ih
      refine ⟨start, l ++ [c], by simp, hstart, ?_⟩
      simp [hl, Ne.symm hc]

/-! ### Cut texts -/

/-- A part of a text with a separator in it goes no further than the separator, or beyond it. -/
lemma take_separated (sep : Char) (a rest : Str) (n : ℕ) :
    (n ≤ a.length ∧ (a ++ sep :: rest).take n = a.take n) ∨
      ∃ m, n = a.length + 1 + m ∧ (a ++ sep :: rest).take n = a ++ sep :: rest.take m := by
  rcases Nat.lt_or_ge a.length n with hlt | hle
  · obtain ⟨m, rfl⟩ := Nat.exists_eq_add_of_lt hlt
    have hlen : a.length + m + 1 - a.length = m + 1 := by omega
    refine .inr ⟨m, by omega, ?_⟩
    rw [List.take_append, List.take_of_length_le (by omega), hlen, List.take_succ_cons]
  · exact .inl ⟨hle, List.take_append_of_le_length hle⟩

lemma HasCompleteTail.of_append {s t : Str} (h : HasCompleteTail (s ++ t)) : HasCompleteTail t := by
  by_cases ht : t = []
  · exact .inl ht
  · rcases h with h | h
    · exact .inl (List.append_eq_nil_iff.mp h).2
    · exact .inr (by rwa [List.getLast?_append_of_ne_nil _ ht] at h)

lemma not_hasCompleteTail {l : Str} (hn : '\n' ∉ l) (hne : l ≠ []) : ¬ HasCompleteTail l := by
  rintro (h | h)
  · exact hne h
  · exact hn (List.mem_of_getLast? h)

lemma splitInclusive_unended {l : Str} (hn : '\n' ∉ l) (hne : l ≠ []) :
    splitInclusive l = [l] := by
  induction l with
  | nil => exact absurd rfl hne
  | cons c l ih =>
    have hc : c ≠ '\n' := fun e => hn (by simp [e])
    rw [splitInclusive, if_neg hc]
    by_cases hl : l = []
    · subst hl
      rfl
    · rw [ih (fun hm => hn (by simp [hm])) hl]

/-- A line that is not ended. -/
lemma lines_unended {l : Str} (hn : '\n' ∉ l) (hne : l ≠ []) : lines l = [l] := by
  have hlast : l.getLast? ≠ some '\n' := fun h => hn (List.mem_of_getLast? h)
  rw [lines, splitInclusive_unended hn hne]
  simp [stripEnding, hlast]

/-- A text that is cut within its first line. -/
lemma lines_take_within {l rest : Str} {t : ℕ} (hn : '\n' ∉ l) (h : t ≤ l.length) (ht : t ≠ 0) :
    lines ((l ++ '\n' :: rest).take t) = [l.take t] := by
  have hne : l.take t ≠ [] := by
    intro hnil
    rcases List.take_eq_nil_iff.mp hnil with h0 | rfl
    · exact ht h0
    · exact ht (Nat.le_zero.mp h)
  rw [List.take_append_of_le_length h]
  exact lines_unended (fun hm => hn (List.mem_of_mem_take hm)) hne

/-- A text that is cut behind its first line, which may have lost its newline. -/
lemma lines_take_behind {l rest : Str} {t : ℕ} (hn : '\n' ∉ l) (hr : l.getLast? ≠ some '\r')
    (hne : l ≠ []) (h : l.length ≤ t) :
    lines ((l ++ '\n' :: rest).take t) = l :: lines (rest.take (t - (l.length + 1))) := by
  have hpos : l.length ≠ 0 := fun h0 => hne (List.length_eq_zero_iff.mp h0)
  rcases Nat.eq_or_lt_of_le h with rfl | hlt
  · rw [lines_take_within hn le_rfl hpos, List.take_length, Nat.sub_eq_zero_of_le (by omega)]
    rfl
  · have hline : HasCompleteTail (l ++ ['\n']) := .inr (by simp)
    have hlen : (l ++ ['\n']).length = l.length + 1 := by simp
    have hsplit : l ++ '\n' :: rest = (l ++ ['\n']) ++ rest := by simp
    rw [hsplit, List.take_append, hlen, List.take_of_length_le (by omega), lines_append hline,
      lines_line hn hr]
    rfl

/-! ### Decimal numerals -/

def digits : Str := "0123456789".toList
def numeral : Str := "-0123456789".toList

def showNat (n : ℕ) : Str := Nat.toDigits 10 n

def showInt (z : ℤ) : Str := if z < 0 then '-' :: showNat z.natAbs else showNat z.natAbs

lemma mem_digits_of_isDigit {c : Char} (h : c.isDigit) : c ∈ digits := by
  simp only [Char.isDigit, Bool.and_eq_true, decide_eq_true_eq, UInt32.le_iff_toNat_le] at h
  have hlo : 48 ≤ c.toNat := h.1
  have hhi : c.toNat ≤ 57 := h.2
  have hc : Char.ofNat c.toNat = c := c.ofNat_toNat
  generalize c.toNat = n at hlo hhi hc
  subst hc
  interval_cases n <;> decide

lemma showNat_subset (n : ℕ) : showNat n ⊆ digits := fun _ hc =>
  mem_digits_of_isDigit (Nat.isDigit_of_mem_toDigits (by decide) (by decide) hc)

lemma digits_subset_numeral : digits ⊆ numeral := by decide

lemma showInt_subset (z : ℤ) : showInt z ⊆ numeral := by
  have h := List.Subset.trans (showNat_subset z.natAbs) digits_subset_numeral
  unfold showInt
  split
  · exact List.cons_subset.mpr ⟨by decide, h⟩
  · exact h

lemma showNat_ne_nil (n : ℕ) : showNat n ≠ [] := Nat.toDigits_ne_nil

/-- A nonempty string of digits, as a number. -/
def parseDigits (s : Str) : Option ℕ :=
  if s ≠ [] ∧ s.all Char.isDigit then some (Nat.ofDigitChars 10 s 0) else none

@[simp] lemma parseDigits_showNat (n : ℕ) : parseDigits (showNat n) = some n := by
  have hall : (showNat n).all Char.isDigit := by
    rw [List.all_eq_true]
    exact fun c hc => Nat.isDigit_of_mem_toDigits (by decide) (by decide) hc
  rw [parseDigits, if_pos ⟨showNat_ne_nil n, hall⟩, showNat, Nat.ofDigitChars_ten_toDigits]

def stripPlus : Str → Str
  | '+' :: s => s
  | s => s

/-- An unsigned number below `bound`, a plus sign allowed in front. -/
def parseUnsigned (bound : ℕ) (s : Str) : Option ℕ :=
  (parseDigits (stripPlus s)).filter (· < bound)

/-- A signed number from `-bound` up to `bound - 1`, a sign of either kind allowed in
front. -/
def parseSigned (bound : ℕ) (s : Str) : Option ℤ :=
  match s with
  | '-' :: rest => (parseDigits rest).bind fun n => if n ≤ bound then some (-(n : ℤ)) else none
  | _ => (parseUnsigned bound s).map Int.ofNat

lemma stripPlus_showNat (n : ℕ) : stripPlus (showNat n) = showNat n := by
  have hplus : '+' ∉ showNat n := fun hm => absurd (showNat_subset n hm) (by decide)
  unfold stripPlus
  split
  · next s heq => exact absurd (by rw [heq]; simp) hplus
  · rfl

lemma parseUnsigned_showNat {bound n : ℕ} (h : n < bound) :
    parseUnsigned bound (showNat n) = some n := by
  simp [parseUnsigned, stripPlus_showNat, h]

lemma parseSigned_showInt {bound : ℕ} {z : ℤ} (hlo : -(bound : ℤ) ≤ z) (hhi : z < bound) :
    parseSigned bound (showInt z) = some z := by
  unfold showInt
  split
  · next hneg =>
    have hle : z.natAbs ≤ bound := by omega
    have habs : -(z.natAbs : ℤ) = z := by omega
    simp only [parseSigned, parseDigits_showNat, Option.bind_some, hle, if_true, habs]
  · next hnn =>
    have hlt : z.natAbs < bound := by omega
    have habs : Int.ofNat z.natAbs = z := by rw [Int.ofNat_eq_natCast]; omega
    have hminus : '-' ∉ showNat z.natAbs := fun hm =>
      absurd (showNat_subset _ hm) (by decide)
    unfold parseSigned
    split
    · next s heq => exact absurd (by rw [heq]; simp) hminus
    · rw [parseUnsigned_showNat hlt, Option.map_some, habs]

/-! ### Parts of numerals -/

/-- A part of a numeral is the numeral of a number that is not larger, and smaller unless the
part is all of it. -/
lemma showNat_take {n r : ℕ} (hr : r ≠ 0) :
    ∃ m, (showNat n).take r = showNat m ∧ m ≤ n ∧ (0 < n → 0 < m) ∧
      (r < (showNat n).length → m < n) := by
  induction n using Nat.strong_induction_on generalizing r with
  | _ n ih =>
    by_cases hlen : r < (showNat n).length
    · have hn : 10 ≤ n := by
        by_contra hlt
        have hone : (showNat n).length = 1 := by
          rw [showNat, Nat.toDigits_of_lt_base (by omega)]
          rfl
        omega
      have hlast : showNat n = showNat (n / 10) ++ [(n % 10).digitChar] :=
        Nat.toDigits_of_base_le (by decide) hn
      rw [hlast, List.length_append, List.length_singleton] at hlen
      obtain ⟨m, htake, hle, hpos, -⟩ := ih (n / 10) (by omega) hr
      have hm : 0 < m := hpos (by omega)
      refine ⟨m, ?_, by omega, fun _ => hm, fun _ => by omega⟩
      rw [hlast, List.take_append_of_le_length (by omega), htake]
    · exact ⟨n, List.take_of_length_le (not_lt.mp hlen), le_rfl, id, fun h => absurd h hlen⟩

/-- The text ends with a digit. -/
def endsWithDigit (s : Str) : Bool := s.getLast?.any Char.isDigit

lemma endsWithDigit_cons {c : Char} {s : Str} (hs : s ≠ []) :
    endsWithDigit (c :: s) = endsWithDigit s := by
  obtain ⟨d, s, rfl⟩ := List.exists_cons_of_ne_nil hs
  rw [endsWithDigit, List.getLast?_cons_cons, endsWithDigit]

lemma endsWithDigit_of_parseDigits {s : Str} {n : ℕ} (h : parseDigits s = some n) :
    s ≠ [] ∧ endsWithDigit s = true := by
  unfold parseDigits at h
  split at h
  · next hdigits =>
    refine ⟨hdigits.1, ?_⟩
    rw [endsWithDigit, List.getLast?_eq_some_getLast hdigits.1, Option.any_some]
    exact List.all_eq_true.mp hdigits.2 _ (List.getLast_mem hdigits.1)
  · cases h

/-- What is read as a signed number ends with a digit. -/
lemma endsWithDigit_of_parseSigned {bound : ℕ} {s : Str} {z : ℤ}
    (h : parseSigned bound s = some z) : endsWithDigit s = true := by
  unfold parseSigned at h
  split at h
  · obtain ⟨n, hn, -⟩ := Option.bind_eq_some_iff.mp h
    obtain ⟨hne, hend⟩ := endsWithDigit_of_parseDigits hn
    rwa [endsWithDigit_cons hne]
  · obtain ⟨n, hn, -⟩ := Option.map_eq_some_iff.mp h
    obtain ⟨hread, -⟩ := Option.filter_eq_some_iff.mp hn
    unfold stripPlus at hread
    split at hread
    · obtain ⟨hne, hend⟩ := endsWithDigit_of_parseDigits hread
      rwa [endsWithDigit_cons hne]
    · exact (endsWithDigit_of_parseDigits hread).2

/-- **A part of a signed numeral** that ends with a digit is the numeral of another number. -/
theorem showInt_take {bound : ℕ} {z : ℤ} (hlo : -(bound : ℤ) ≤ z) (hhi : z < bound) {r : ℕ}
    (hr : r < (showInt z).length) (hend : endsWithDigit ((showInt z).take r) = true) :
    ∃ z', (showInt z).take r = showInt z' ∧ z' ≠ z ∧ -(bound : ℤ) ≤ z' ∧ z' < bound := by
  cases r with
  | zero => cases hend
  | succ r =>
    by_cases hneg : z < 0
    · rw [showInt, if_pos hneg, List.length_cons] at hr
      rw [showInt, if_pos hneg, List.take_succ_cons] at hend ⊢
      have hzero : r ≠ 0 := by
        rintro rfl
        cases hend
      obtain ⟨m, htake, -, hpos, hlt⟩ := showNat_take (n := z.natAbs) hzero
      have hm : m < z.natAbs := hlt (by omega)
      have hm' : 0 < m := hpos (by omega)
      refine ⟨-(m : ℤ), ?_, by omega, by omega, by omega⟩
      rw [htake, showInt, if_pos (by omega), Int.natAbs_neg, Int.natAbs_natCast]
    · rw [showInt, if_neg hneg] at hr
      rw [showInt, if_neg hneg]
      obtain ⟨m, htake, -, -, hlt⟩ := showNat_take (n := z.natAbs) (Nat.succ_ne_zero r)
      have hm : m < z.natAbs := hlt hr
      refine ⟨m, ?_, by omega, by omega, by omega⟩
      rw [htake, showInt, if_neg (by omega), Int.natAbs_natCast]

/-! ### Parts of joined pieces -/

/-- A part of joined pieces is made of the first pieces and a part of the next one, which is not
all of it when it is the last. -/
lemma take_intercalate (sep : Char) {pieces : List Str} (hne : pieces ≠ []) {n : ℕ}
    (hn : n < ([sep].intercalate pieces).length) :
    ∃ before piece after r, pieces = before ++ piece :: after ∧
      ([sep].intercalate pieces).take n = [sep].intercalate (before ++ [piece.take r]) ∧
      r ≤ piece.length ∧ (after = [] → r < piece.length) := by
  induction pieces generalizing n with
  | nil => exact absurd rfl hne
  | cons a pieces ih =>
    cases pieces with
    | nil =>
      have hsingle : ∀ s : Str, [sep].intercalate [s] = s := fun s => by simp [List.intercalate]
      rw [hsingle] at hn
      exact ⟨[], a, [], n, rfl, by rw [hsingle, List.nil_append, hsingle], hn.le, fun _ => hn⟩
    | cons b pieces =>
      rw [intercalate_cons_cons] at hn ⊢
      rcases take_separated sep a ([sep].intercalate (b :: pieces)) n with
        ⟨hle, htake⟩ | ⟨m, rfl, htake⟩
      · refine ⟨[], a, b :: pieces, n, rfl, ?_, hle, fun h => (nomatch h)⟩
        rw [htake, List.nil_append]
        simp [List.intercalate]
      · rw [List.length_append, List.length_cons] at hn
        obtain ⟨before, piece, after, r, hpieces, hrest, hr, hafter⟩ :=
          ih (List.cons_ne_nil b pieces) (n := m) (by omega)
        refine ⟨a :: before, piece, after, r, by rw [hpieces, List.cons_append], ?_, hr, hafter⟩
        rw [htake, hrest]
        cases before with
        | nil => rw [List.nil_append, List.cons_append, List.nil_append, intercalate_cons_cons]
        | cons c before =>
          rw [List.cons_append, List.cons_append, List.cons_append, intercalate_cons_cons]

lemma splitOn_join {sep : Char} {pieces : List Str} {x : Str} (h : ∀ s ∈ pieces, sep ∉ s)
    (hx : sep ∉ x) : ([sep].intercalate (pieces ++ [x])).splitOn sep = pieces ++ [x] := by
  refine List.splitOn_intercalate sep (fun s hs => ?_) (by simp)
  rcases List.mem_append.mp hs with hs | hs
  · exact h s hs
  · rwa [List.mem_singleton.mp hs]

/-- A part with all the pieces is cut within the last one. -/
lemma take_last_piece {sep : Char} {pieces : List Str} {final : Str} {n : ℕ}
    (h : ∀ s ∈ pieces ++ [final], sep ∉ s)
    (hn : n < ([sep].intercalate (pieces ++ [final])).length)
    (hcount : ((([sep].intercalate (pieces ++ [final])).take n).splitOn sep).length =
      pieces.length + 1) :
    ∃ r < final.length,
      ([sep].intercalate (pieces ++ [final])).take n =
          [sep].intercalate (pieces ++ [final.take r]) ∧
        (([sep].intercalate (pieces ++ [final])).take n).splitOn sep =
          pieces ++ [final.take r] := by
  obtain ⟨before, piece, after, r, hsplit, htake, -, hafter⟩ :=
    take_intercalate sep (by simp) hn
  have hbefore : ∀ s ∈ before, sep ∉ s := fun s hs => h s (by simp [hsplit, hs])
  have hpiece : sep ∉ piece.take r := fun hm =>
    h piece (by simp [hsplit]) (List.mem_of_mem_take hm)
  have hparts := splitOn_join hbefore hpiece
  rw [htake, hparts, List.length_append, List.length_singleton] at hcount
  have hlen := congrArg List.length hsplit
  simp only [List.length_append, List.length_cons, List.length_nil] at hlen
  have hnone : after = [] := List.length_eq_zero_iff.mp (by omega)
  subst hnone
  obtain ⟨rfl, hfinal⟩ := List.append_inj' hsplit rfl
  obtain rfl := (List.cons.inj hfinal).1
  rw [htake]
  exact ⟨r, hafter rfl, rfl, hparts⟩

end Chesscoin.Lib.Text

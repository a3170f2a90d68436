import Chesscoin.Storage

/-!
The lines of the log are read back, and a record that does not start a line is not.

A header and a record are three fields between bars, the last of which may have bars of its
own. Text before a record on its line moves the bars: either the checksum is no longer hex,
or the payload has bars too many to be a block.
-/

namespace Chesscoin.LogLines

open Chesscoin.Lib.ByteString Chesscoin.Lib.Text Chesscoin.Lib.Fallible Chesscoin.Domain
  Chesscoin.Simulator Chesscoin.Validation Chesscoin.Wire Chesscoin.BlockCodec Chesscoin.Storage

variable {hasher : HashPort} {addr : AddrText}

/-! ### What lines are made of -/

def fingerprintAlphabet : Str :=
  "rules=v1;model_width=;learning_rate_ppm=;steps=;samples=;difficulty=".toList ++ numeral

/-- The characters of headers and records. -/
def lineAlphabet : Str :=
  storageHeaderVersion ++ storageRecordVersion ++ Digest.hexAlphabet ++ fingerprintAlphabet ++
    blockAlphabet

lemma lineAlphabet_ascii : Ascii lineAlphabet := by
  have h : lineAlphabet.all (fun c => c.toNat < 128) = true := by decide
  intro c hc
  simpa using List.all_eq_true.mp h c hc

lemma chainFingerprint_subset (config : ChainConfig) :
    chainFingerprint config ⊆ fingerprintAlphabet := by
  have hnat : ∀ n, showNat n ⊆ fingerprintAlphabet := fun n =>
    List.Subset.trans (showNat_subset n) (by decide)
  have hint : showInt learningRatePpm.toInt ⊆ fingerprintAlphabet :=
    List.Subset.trans (showInt_subset _) (by decide)
  unfold chainFingerprint
  simp only [List.append_subset]
  refine ⟨⟨⟨⟨⟨⟨⟨⟨⟨⟨⟨?_, ?_⟩, ?_⟩, hnat _⟩, ?_⟩, hint⟩, ?_⟩, hnat _⟩, ?_⟩, hnat _⟩, ?_⟩, hnat _⟩ <;>
    decide

lemma bar_notMem_chainFingerprint (config : ChainConfig) : '|' ∉ chainFingerprint config :=
  fun h => absurd (chainFingerprint_subset config h) (by decide)

lemma bar_notMem_toHex (d : Digest) : '|' ∉ d.toHex := fun h =>
  absurd (d.toHex_subset h) (by decide)

lemma join_three (a b c : Str) : join '|' [a, b, c] = a ++ '|' :: (b ++ '|' :: c) := by
  simp [join, List.intercalate]

lemma encodeStorageHeader_eq (config : ChainConfig) :
    encodeStorageHeader hasher config = storageHeaderVersion ++ '|' ::
      ((storageRecordChecksum hasher (chainFingerprint config)).toHex ++ '|' ::
        chainFingerprint config) :=
  join_three _ _ _

lemma encodeStorageRecord_eq (b : Block) :
    encodeStorageRecord hasher b = storageRecordVersion ++ '|' ::
      ((storageRecordChecksum hasher (encodeBlockMessage b)).toHex ++ '|' ::
        encodeBlockMessage b) :=
  join_three _ _ _

lemma encodeStorageHeader_subset (hasher : HashPort) (config : ChainConfig) :
    encodeStorageHeader hasher config ⊆ lineAlphabet := by
  refine join_subset (by decide) ?_
  simp only [List.mem_cons, List.not_mem_nil, or_false, forall_eq_or_imp, forall_eq]
  exact ⟨by decide, List.Subset.trans (Digest.toHex_subset _) (by decide),
    List.Subset.trans (chainFingerprint_subset config) (by decide)⟩

lemma encodeStorageRecord_subset (hasher : HashPort) (b : Block) :
    encodeStorageRecord hasher b ⊆ lineAlphabet := by
  refine join_subset (by decide) ?_
  simp only [List.mem_cons, List.not_mem_nil, or_false, forall_eq_or_imp, forall_eq]
  exact ⟨by decide, List.Subset.trans (Digest.toHex_subset _) (by decide),
    List.Subset.trans (encodeBlock_subset b) (by decide)⟩

/-- A text of the log's characters is one line when it is ended. -/
lemma lines_of_subset {s : Str} (h : s ⊆ lineAlphabet) : lines (s ++ ['\n']) = [s] :=
  lines_line (fun hm => absurd (h hm) (by decide)) fun hlast =>
    absurd (h (List.mem_of_getLast? hlast)) (by decide)

/-! ### Lines are read back -/

lemma splitn_three {a b c : Str} (ha : '|' ∉ a) (hb : '|' ∉ b) :
    splitn 3 '|' (a ++ '|' :: (b ++ '|' :: c)) = [a, b, c] := by
  rw [splitn_append ha, splitn_append hb]
  rfl

lemma decodeStorageHeader_encode (config : ChainConfig) :
    decodeStorageHeader hasher (encodeStorageHeader hasher config) =
      .ok (chainFingerprint config) := by
  rw [decodeStorageHeader, encodeStorageHeader_eq,
    splitn_three (by decide) (bar_notMem_toHex _)]
  simp only [List.head?_cons, ne_eq, not_true_eq_false, if_false, Digest.fromHex_toHex]
  simp [bind, Except.bind, pure, Except.pure]

lemma decodeStorageRecord_encode (b : Block) :
    decodeStorageRecord hasher addr (encodeStorageRecord hasher b) = .ok b := by
  rw [decodeStorageRecord, encodeStorageRecord_eq,
    splitn_three (by decide) (bar_notMem_toHex _)]
  simp only [List.head?_cons, ne_eq, not_true_eq_false, if_false, Digest.fromHex_toHex]
  simp [bind, Except.bind, decodeBlockMessage_encode]

lemma decodeStorageLine_header (hasher : HashPort) (addr : AddrText) (config : ChainConfig) :
    decodeStorageLine hasher addr (encodeStorageHeader hasher config) =
      .ok (.header (chainFingerprint config)) := by
  have hprefix : storageHeaderVersion.isPrefixOf (encodeStorageHeader hasher config) = true := by
    rw [encodeStorageHeader_eq, List.isPrefixOf_iff_prefix]
    exact List.prefix_append _ _
  rw [decodeStorageLine, if_pos hprefix, decodeStorageHeader_encode]
  rfl

lemma decodeStorageLine_record (hasher : HashPort) (addr : AddrText) (b : Block) :
    decodeStorageLine hasher addr (encodeStorageRecord hasher b) = .ok (.block b) := by
  have hprefix : storageHeaderVersion.isPrefixOf (encodeStorageRecord hasher b) = false := by
    rw [encodeStorageRecord_eq]
    rfl
  rw [decodeStorageLine, hprefix, decodeStorageRecord_encode]
  rfl

lemma encodeBlockMessage_eq (b : Block) :
    encodeBlockMessage b = "BLOCK".toList ++ '|' :: ['|'].intercalate (blockFields b) := by
  rw [encodeBlockMessage, encodeBlock, join, blockFields, intercalate_cons_cons]

/-- The plain lines of older logs are read as well. -/
lemma decodeStorageLine_plain (b : Block) :
    decodeStorageLine hasher addr (encodeBlockMessage b) = .ok (.block b) := by
  have hprefix : storageHeaderVersion.isPrefixOf (encodeBlockMessage b) = false := by
    rw [encodeBlockMessage_eq]
    rfl
  have hrecord : decodeStorageRecord hasher addr (encodeBlockMessage b) = .ok b := by
    have hhead : (splitn 3 '|' (encodeBlockMessage b)).head? ≠ some storageRecordVersion := by
      rw [encodeBlockMessage_eq, splitn_append (by decide), List.head?_cons]
      decide
    rw [decodeStorageRecord]
    simp only [if_pos hhead]
    exact decodeBlockMessage_encode addr b
  rw [decodeStorageLine, hprefix]
  simp [hrecord, Except.map]

/-! ### What a line that is read looks like -/

lemma decodeStorageHeader_ok {line fingerprint : Str}
    (h : decodeStorageHeader hasher line = .ok fingerprint) :
    ∃ checksum d, splitn 3 '|' line = [storageHeaderVersion, checksum, fingerprint] ∧
      Digest.fromHex checksum = .ok d := by
  unfold decodeStorageHeader at h
  simp only at h
  split at h
  · cases h
  · next hhead =>
    split at h
    · next version checksum rest hsplit =>
      obtain ⟨d, hd, h⟩ := bind_ok h
      rw [hsplit, List.head?_cons, ne_eq, not_not, Option.some.injEq] at hhead
      split at h
      · cases h
      · cases h
        exact ⟨checksum, d, by rw [hsplit, hhead], hd⟩
    · cases h

lemma decodeStorageRecord_ok {line : Str} {b : Block}
    (h : decodeStorageRecord hasher addr line = .ok b) :
    decodeBlockMessage addr line = .ok b ∨ ∃ checksum d payload,
      splitn 3 '|' line = [storageRecordVersion, checksum, payload] ∧
        Digest.fromHex checksum = .ok d ∧ decodeBlockMessage addr payload = .ok b := by
  unfold decodeStorageRecord at h
  simp only at h
  split at h
  · exact .inl h
  · next hhead =>
    split at h
    · next version checksum payload hsplit =>
      obtain ⟨d, hd, h⟩ := bind_ok h
      rw [hsplit, List.head?_cons, ne_eq, not_not, Option.some.injEq] at hhead
      split at h
      · cases h
      · exact .inr ⟨checksum, d, payload, by rw [hsplit, hhead], hd, h⟩
    · cases h

lemma bar_mem_of_decode {line : Str} {decoded : StorageLine}
    (h : decodeStorageLine hasher addr line = .ok decoded) : '|' ∈ line := by
  by_contra hbar
  have hsplit : splitn 3 '|' line = [line] := splitn_of_notMem hbar
  unfold decodeStorageLine at h
  split at h
  · obtain ⟨_, hheader, -⟩ := map_ok h
    obtain ⟨_, _, hsplit', -⟩ := decodeStorageHeader_ok hheader
    rw [hsplit] at hsplit'
    cases hsplit'
  · obtain ⟨b, hrecord, -⟩ := map_ok h
    rcases decodeStorageRecord_ok hrecord with hplain | ⟨_, _, _, hsplit', -⟩
    · have hcount := decodeBlockMessage_bars hplain
      rw [List.count_eq_zero_of_not_mem hbar] at hcount
      cases hcount
    · rw [hsplit] at hsplit'
      cases hsplit'

lemma isBlank_eq_false_of_bar {line : Str} (h : '|' ∈ line) : isBlank line = false := by
  cases hb : isBlank line with
  | false => rfl
  | true => exact absurd (List.all_eq_true.mp hb _ h) (by decide)

lemma isBlank_eq_false_of_decode {line : Str} {decoded : StorageLine}
    (h : decodeStorageLine hasher addr line = .ok decoded) : isBlank line = false :=
  isBlank_eq_false_of_bar (bar_mem_of_decode h)

/-! ### Records that do not start a line -/

lemma decodePairs_notMem {x : UInt8} (hx : ∀ v, Digest.decodeHexDigit x ≠ .ok v) {n : ℕ}
    {bytes : Bytes} {r : { out : Bytes // out.length = n }} (hlen : bytes.length = 2 * n)
    (h : Digest.decodePairs n bytes = .ok r) : x ∉ bytes := by
  induction n generalizing bytes with
  | zero =>
    rw [List.length_eq_zero_iff.mp hlen]
    exact List.not_mem_nil
  | succ n ih =>
    match bytes, hlen, h with
    | high :: low :: rest, hlen, h =>
      simp only [Digest.decodePairs] at h
      split at h
      · cases h
      · next hhigh =>
        split at h
        · cases h
        · next hlow =>
          split at h
          · cases h
          · next hrest =>
            have hnot := ih (by simpa [Nat.mul_succ] using hlen) hrest
            simp only [List.mem_cons, not_or]
            exact ⟨fun e => hx _ (e ▸ hhigh), fun e => hx _ (e ▸ hlow), hnot⟩

/-- The version of a record is not hex. -/
lemma fromHex_version {s : Str} {d : Digest} :
    Digest.fromHex (s ++ storageRecordVersion) ≠ .ok d := by
  intro h
  unfold Digest.fromHex at h
  simp only at h
  split at h
  · cases h
  · next hlen =>
    split at h
    · cases h
    · next hpairs =>
      have hdigit : Digest.decodeHexDigit 76 = .error "invalid hex digit" := rfl
      have hnot := decodePairs_notMem (x := 76) (fun v => by simp [hdigit]) (by omega) hpairs
      refine hnot (List.mem_flatMap.mpr ⟨'L', ?_, by decide⟩)
      exact List.mem_append_right _ (by decide)

lemma bars_encodeStorageRecord (b : Block) :
    (encodeStorageRecord hasher b).count '|' = 15 := by
  have hblock : (encodeBlockMessage b).count '|' = 13 :=
    decodeBlockMessage_bars (decodeBlockMessage_encode ⟨fun _ => [], fun _ => none⟩ b)
  have hhex : ∀ d : Digest, d.toHex.count '|' = 0 := fun d =>
    List.count_eq_zero_of_not_mem (bar_notMem_toHex d)
  rw [encodeStorageRecord_eq, List.count_append, List.count_cons_self, List.count_append, hhex,
    List.count_cons_self, hblock]
  rfl

lemma bar_mem_encodeStorageRecord (b : Block) : '|' ∈ encodeStorageRecord hasher b :=
  List.count_pos_iff.mp (by rw [bars_encodeStorageRecord]; decide)

lemma decodeBlockMessage_merged (t : Str) (b b' : Block) :
    decodeBlockMessage addr (t ++ encodeStorageRecord hasher b) ≠ .ok b' := by
  intro h
  have hbars := decodeBlockMessage_bars h
  rw [List.count_append, bars_encodeStorageRecord] at hbars
  omega

/-- The three fields of a text with a record after it. -/
lemma splitn_merged (hasher : HashPort) (t : Str) (b : Block) :
    (∃ rest, splitn 3 '|' (t ++ encodeStorageRecord hasher b) =
        (t ++ storageRecordVersion) :: rest) ∨
      (∃ a s rest, splitn 3 '|' (t ++ encodeStorageRecord hasher b) =
        [a, s ++ storageRecordVersion, rest]) ∨
      ∃ a s rest, splitn 3 '|' (t ++ encodeStorageRecord hasher b) =
        [a, s, rest ++ encodeStorageRecord hasher b] := by
  have hcut : ∀ {s : Str} {n : ℕ}, '|' ∉ s → ∃ rest,
      splitn (n + 2) '|' (s ++ encodeStorageRecord hasher b) =
        (s ++ storageRecordVersion) :: splitn (n + 1) '|' rest := by
    intro s n hs
    rw [encodeStorageRecord_eq, ← List.append_assoc, splitn_append]
    · exact ⟨_, rfl⟩
    · rw [List.mem_append, not_or]
      exact ⟨hs, by decide⟩
  by_cases ht : '|' ∈ t
  · obtain ⟨a, t', rfl, ha⟩ := List.eq_append_cons_of_mem ht
    rw [List.append_assoc, List.cons_append, splitn_append ha]
    by_cases ht' : '|' ∈ t'
    · obtain ⟨s, t'', rfl, hs⟩ := List.eq_append_cons_of_mem ht'
      rw [List.append_assoc, List.cons_append, splitn_append hs]
      exact .inr (.inr ⟨a, s, t'', rfl⟩)
    · obtain ⟨rest, hrest⟩ := hcut (n := 0) ht'
      exact .inr (.inl ⟨a, t', rest, by rw [hrest]; rfl⟩)
  · obtain ⟨rest, hrest⟩ := hcut (n := 1) ht
    exact .inl ⟨_, hrest⟩

/-- **A record that does not start its line is lost**: the line cannot be read, or it is read
as the header of some other chain. -/
theorem decodeStorageLine_merged (hasher : HashPort) (addr : AddrText) {t : Str} (ht : t ≠ [])
    (b : Block) :
    (∃ e, decodeStorageLine hasher addr (t ++ encodeStorageRecord hasher b) = .error e) ∨
      ∃ fingerprint, '|' ∈ fingerprint ∧
        decodeStorageLine hasher addr (t ++ encodeStorageRecord hasher b) =
          .ok (.header fingerprint) := by
  have hlong : ∀ v : Str, v.length = 6 → t ++ storageRecordVersion ≠ v := by
    rintro v hv rfl
    rw [List.length_append, show storageRecordVersion.length = 6 from rfl] at hv
    exact ht (List.length_eq_zero_iff.mp (by omega))
  cases hd : decodeStorageLine hasher addr (t ++ encodeStorageRecord hasher b) with
  | error e => exact .inl ⟨e, rfl⟩
  | ok decoded =>
    refine .inr ?_
    unfold decodeStorageLine at hd
    split at hd
    · obtain ⟨fingerprint, hheader, rfl⟩ := map_ok hd
      obtain ⟨checksum, d, hsplit, hhex⟩ := decodeStorageHeader_ok hheader
      refine ⟨fingerprint, ?_, rfl⟩
      rcases splitn_merged hasher t b with
        ⟨rest, hmerged⟩ | ⟨a, s, rest, hmerged⟩ | ⟨a, s, rest, hmerged⟩ <;>
        rw [hsplit] at hmerged
      · exact absurd (List.cons.inj hmerged).1.symm (hlong _ rfl)
      · simp only [List.cons.injEq, and_true] at hmerged
        rw [hmerged.2.1] at hhex
        exact absurd hhex fromHex_version
      · simp only [List.cons.injEq, and_true] at hmerged
        rw [hmerged.2.2]
        exact List.mem_append_right _ (bar_mem_encodeStorageRecord b)
    · obtain ⟨b', hrecord, -⟩ := map_ok hd
      rcases decodeStorageRecord_ok hrecord with hplain | ⟨checksum, d, payload, hsplit, hhex, hb⟩
      · exact absurd hplain (decodeBlockMessage_merged t b b')
      · rcases splitn_merged hasher t b with
          ⟨rest, hmerged⟩ | ⟨a, s, rest, hmerged⟩ | ⟨a, s, rest, hmerged⟩ <;>
          rw [hsplit] at hmerged
        · exact absurd (List.cons.inj hmerged).1.symm (hlong _ rfl)
        · simp only [List.cons.injEq, and_true] at hmerged
          rw [hmerged.2.1] at hhex
          exact absurd hhex fromHex_version
        · simp only [List.cons.injEq, and_true] at hmerged
          rw [hmerged.2.2] at hb
          exact absurd hb (decodeBlockMessage_merged rest b b')

end Chesscoin.LogLines

import Chesscoin.Lib.Fallible
import Chesscoin.Wire

/-!
A block is read back from the message it is written as.

Each level of the format has a separator that the level below never writes: underscores
between weights, commas between the fields of an entry, semicolons between entries and bars
between the fields of the block. The alphabets say which characters a level writes.
-/

namespace Chesscoin.BlockCodec

open Chesscoin.Lib.ByteString Chesscoin.Lib.Text Chesscoin.Lib.Fallible Chesscoin.Domain
  Chesscoin.Wire

/-! ### Alphabets -/

def modelAlphabet : Str := '_' :: numeral
def fieldAlphabet : Str := modelAlphabet ++ Digest.hexAlphabet
def entryAlphabet : Str := ',' :: fieldAlphabet
def bodyAlphabet : Str := ';' :: entryAlphabet
def blockAlphabet : Str := '|' :: ("BLOCK".toList ++ bodyAlphabet)

lemma join_subset {A : Str} {sep : Char} {l : List Str} (hsep : sep ∈ A)
    (h : ∀ s ∈ l, s ⊆ A) : join sep l ⊆ A :=
  intercalate_subset hsep h

lemma showU64_subset (x : UInt64) : showU64 x ⊆ fieldAlphabet :=
  List.Subset.trans (showNat_subset _) (by decide)

lemma showI64_subset (x : Int64) : showI64 x ⊆ numeral := showInt_subset _

lemma showI64_field (x : Int64) : showI64 x ⊆ fieldAlphabet :=
  List.Subset.trans (showI64_subset x) (by decide)

lemma toHex_field (d : Digest) : d.toHex ⊆ fieldAlphabet :=
  List.Subset.trans d.toHex_subset (by decide)

lemma encodeModel_subset (m : ModelState) : encodeModel m ⊆ fieldAlphabet := by
  refine join_subset (by decide) fun s hs => ?_
  obtain ⟨w, -, rfl⟩ := List.mem_map.mp hs
  exact showI64_field w

lemma encodeEntry_subset (e : TraceEntry) : encodeEntry e ⊆ entryAlphabet := by
  refine join_subset (by decide) fun s hs => List.Subset.trans (?_ : s ⊆ fieldAlphabet)
    (by decide)
  simp only [List.mem_cons, List.not_mem_nil, or_false] at hs
  rcases hs with rfl | rfl | rfl | rfl | rfl | rfl | rfl | rfl | rfl | rfl
  · exact toHex_field _
  · exact toHex_field _
  · exact showU64_subset _
  · exact showU64_subset _
  · exact showU64_subset _
  · exact showU64_subset _
  · exact showI64_field _
  · exact showI64_field _
  · exact encodeModel_subset _
  · exact encodeModel_subset _

lemma encodeEntries_subset (es : List TraceEntry) :
    join ';' (es.map encodeEntry) ⊆ bodyAlphabet := by
  refine join_subset (by decide) fun s hs => ?_
  obtain ⟨e, -, rfl⟩ := List.mem_map.mp hs
  exact List.Subset.trans (encodeEntry_subset e) (by decide)

lemma blockFields_subset (b : Block) : ∀ s ∈ blockFields b, s ⊆ bodyAlphabet := by
  have hfield : ∀ s : Str, s ⊆ fieldAlphabet → s ⊆ bodyAlphabet := fun s hs =>
    List.Subset.trans hs (by decide)
  intro s hs
  simp only [blockFields, List.mem_cons, List.not_mem_nil, or_false] at hs
  rcases hs with rfl | rfl | rfl | rfl | rfl | rfl | rfl | rfl | rfl | rfl | rfl | rfl | rfl
  · exact hfield _ (showU64_subset _)
  · exact hfield _ (toHex_field _)
  · exact hfield _ (encodeModel_subset _)
  · exact hfield _ (encodeModel_subset _)
  · exact hfield _ (toHex_field _)
  · exact hfield _ (showU64_subset _)
  · exact hfield _ (showU64_subset _)
  · exact hfield _ (showU64_subset _)
  · exact hfield _ (showU64_subset _)
  · exact hfield _ (encodeModel_subset _)
  · exact hfield _ (encodeModel_subset _)
  · exact hfield _ (toHex_field _)
  · exact encodeEntries_subset _

lemma encodeBlock_subset (b : Block) : encodeBlock b ⊆ blockAlphabet := by
  refine join_subset (by decide) fun s hs => ?_
  rcases List.mem_cons.mp hs with rfl | hs
  · decide
  · exact List.Subset.trans (blockFields_subset b s hs) (by decide)

/-! ### Fields are read back -/

@[simp] lemma parseU64_showU64 (name : String) (x : UInt64) :
    parseField parseU64 name (showU64 x) = .ok x := by
  rw [parseField, parseU64, showU64, parseUnsigned_showNat x.toNat_lt, Option.map_some,
    UInt64.ofNat_toNat]

@[simp] lemma parseI64_showI64 (name : String) (x : Int64) :
    parseField parseI64 name (showI64 x) = .ok x := by
  have hlo : -((2 ^ 63 : ℕ) : ℤ) ≤ x.toInt := by simpa using x.le_toInt
  have hhi : x.toInt < ((2 ^ 63 : ℕ) : ℤ) := by simpa using x.toInt_lt
  rw [parseField, parseI64, showI64, parseSigned_showInt hlo hhi, Option.map_some,
    Int64.ofInt_toInt]

lemma decodeWeights_map {fields : List Str} (ws : List Int64) (h : fields = ws.map showI64) :
    ∃ hw, decodeWeights fields = .ok ⟨ws, hw⟩ := by
  subst h
  induction ws with
  | nil => exact ⟨rfl, rfl⟩
  | cons w ws ih =>
    obtain ⟨hw, hws⟩ := ih
    refine ⟨by simp, ?_⟩
    change (parseField parseI64 "model weight" (showI64 w) >>= fun weight =>
      decodeWeights (ws.map showI64) >>= fun rest => _) = _
    rw [parseI64_showI64, hws]
    rfl

@[simp] lemma decodeModel_encodeModel (m : ModelState) :
    decodeModel (encodeModel m) = .ok m := by
  obtain ⟨ws, hwidth⟩ := m
  have hne : ws.map showI64 ≠ [] := by
    rintro h
    rw [List.map_eq_nil_iff] at h
    subst h
    cases hwidth
  have hsplit : (encodeModel ⟨ws, hwidth⟩).splitOn '_' = ws.map showI64 := by
    refine splitOn_intercalate (A := numeral) (by decide) (fun s hs => ?_) hne
    obtain ⟨w, -, rfl⟩ := List.mem_map.mp hs
    exact showI64_subset w
  have hlen : ((encodeModel ⟨ws, hwidth⟩).splitOn '_').length = modelWidth := by
    rw [hsplit, List.length_map, hwidth]
  obtain ⟨hw, hws⟩ := decodeWeights_map ws hsplit
  rw [decodeModel]
  simp only [dif_pos hlen, hws]
  rfl

lemma decodeEntry_encodeEntry (e : TraceEntry) : decodeEntry (encodeEntry e) = .ok e := by
  have hsplit : (encodeEntry e).splitOn ',' =
      [e.previousCommitment.toHex, e.commitment.toHex, showU64 e.step.index,
        showU64 e.step.seed, showU64 e.step.batchId, showU64 e.step.weightIndex,
        showI64 e.step.gradient, showI64 e.step.learningRatePpm,
        encodeModel e.step.stateBefore, encodeModel e.step.stateAfter] := by
    refine splitOn_intercalate (A := fieldAlphabet) (by decide) ?_ (by simp)
    simp [showU64_subset, showI64_field, toHex_field, encodeModel_subset]
  rw [decodeEntry, hsplit]
  simp only [Digest.fromHex_toHex, parseU64_showU64, parseI64_showI64, decodeModel_encodeModel]
  rfl

/-! ### Lists are read back -/

lemma collect_map {α : Type} {decode : Str → Except String α} {encode : α → Str} {l : List α}
    (h : ∀ a ∈ l, decode (encode a) = .ok a) : collect decode (l.map encode) = .ok l := by
  induction l with
  | nil => rfl
  | cons a l ih =>
    have htail := ih fun b hb => h b (by simp [hb])
    simp only [List.map_cons, collect, h a (by simp), htail]
    rfl

lemma decodeList_join {α : Type} {decode : Str → Except String α} {encode : α → Str} {A : Str}
    {sep : Char} {l : List α} (hsep : sep ∉ A) (hA : ∀ a ∈ l, encode a ⊆ A)
    (hne : ∀ a ∈ l, encode a ≠ []) (h : ∀ a ∈ l, decode (encode a) = .ok a) :
    decodeList sep decode (join sep (l.map encode)) = .ok l := by
  cases l with
  | nil => rfl
  | cons a l =>
    have hjoin : join sep ((a :: l).map encode) ≠ [] := by
      cases l with
      | nil => simpa [join, List.intercalate] using hne a (by simp)
      | cons b l =>
        rw [join, List.map_cons, List.map_cons, intercalate_cons_cons]
        simp
    have hsplit : (join sep ((a :: l).map encode)).splitOn sep = (a :: l).map encode := by
      refine splitOn_intercalate hsep (fun s hs => ?_) (by simp)
      obtain ⟨b, hb, rfl⟩ := List.mem_map.mp hs
      exact hA b hb
    rw [decodeList, if_neg hjoin, hsplit, collect_map h]

lemma encodeEntry_ne_nil (e : TraceEntry) : encodeEntry e ≠ [] := by
  rw [encodeEntry, join, intercalate_cons_cons]
  simp

/-! ### Blocks are read back -/

lemma trimEnd_eq_self {s : Str} (hr : '\r' ∉ s) (hn : '\n' ∉ s) : trimEnd s = s := by
  refine List.rdropWhile_eq_self_iff.mpr fun hne => ?_
  have hmem := List.getLast_mem hne
  simp only [Bool.or_eq_true, beq_iff_eq, not_or]
  exact ⟨fun h => hr (h ▸ hmem), fun h => hn (h ▸ hmem)⟩

lemma encodeBlock_noReturn (b : Block) : '\r' ∉ encodeBlock b := fun h =>
  absurd (encodeBlock_subset b h) (by decide)

lemma encodeBlock_noNewline (b : Block) : '\n' ∉ encodeBlock b := fun h =>
  absurd (encodeBlock_subset b h) (by decide)

lemma splitOn_encodeBlock (b : Block) :
    (encodeBlock b).splitOn '|' = "BLOCK".toList :: blockFields b := by
  refine splitOn_intercalate (A := "BLOCK".toList ++ bodyAlphabet) (by decide) ?_ (by simp)
  intro s hs
  rcases List.mem_cons.mp hs with rfl | hs
  · decide
  · exact List.Subset.trans (blockFields_subset b s hs) (by decide)

lemma decodeBlock_blockFields (b : Block) :
    decodeBlock ("BLOCK".toList :: blockFields b) = .ok (.block b) := by
  have hentries : decodeList ';' decodeEntry (join ';' (b.trace.entries.map encodeEntry)) =
      .ok b.trace.entries :=
    decodeList_join (A := entryAlphabet) (by decide) (fun e _ => encodeEntry_subset e)
      (fun e _ => encodeEntry_ne_nil e) fun e _ => decodeEntry_encodeEntry e
  simp only [blockFields, decodeBlock, Digest.fromHex_toHex, parseU64_showU64,
    decodeModel_encodeModel, hentries]
  rfl

lemma decodeMessage_encodeBlock (addr : AddrText) (b : Block) :
    decodeMessage addr (encodeBlock b) = .ok (.block b) := by
  rw [decodeMessage, trimEnd_eq_self (encodeBlock_noReturn b) (encodeBlock_noNewline b),
    splitOn_encodeBlock]
  exact decodeBlock_blockFields b

/-- **A block is read back from its message.** -/
theorem decodeBlockMessage_encode (addr : AddrText) (b : Block) :
    decodeBlockMessage addr (encodeBlockMessage b) = .ok b := by
  rw [decodeBlockMessage, encodeBlockMessage, decodeMessage_encodeBlock]
  rfl

/-! ### What is read as a block -/

lemma count_trimEnd (line : Str) : (trimEnd line).count '|' = line.count '|' := by
  unfold trimEnd
  induction line using List.reverseRecOn with
  | nil => rfl
  | append_singleton l c ih =>
    rw [List.rdropWhile_concat]
    split
    · next hc =>
      have hne : c ≠ '|' := by rintro rfl; revert hc; decide
      rw [ih, List.count_append]
      simp [hne]
    · rfl

/-- A decoder that makes blocks of fourteen fields only. -/
def Fourteen (decode : List Str → Except String PeerMessage) : Prop :=
  ∀ fields b, decode fields = .ok (.block b) → fields.length = 14

lemma fourteen_locator (make : List Digest → Usize → PeerMessage) (name : String)
    (hmake : ∀ l n b, make l n ≠ .block b) : Fourteen (decodeLocatorRequest make name) := by
  intro fields b h
  unfold decodeLocatorRequest at h
  split at h
  · obtain ⟨l, -, h⟩ := bind_ok h
    obtain ⟨n, -, h⟩ := bind_ok h
    exact absurd (Except.ok.inj h) (hmake l n b)
  · cases h

/-- A decoder that makes a message of one kind makes no block, unless that is the kind. -/
lemma map_ne_block {α : Type} {x : Except String α} {make : α → PeerMessage} {b : Block}
    (hmake : ∀ a, make a ≠ .block b) : x.map make ≠ .ok (.block b) := by
  intro h
  obtain ⟨a, -, ha⟩ := map_ok h
  exact hmake a ha

lemma fourteen_hello (addr : AddrText) : Fourteen (decodeHello addr) := by
  intro fields b h
  unfold decodeHello at h
  split at h
  · obtain ⟨_, -, h⟩ := bind_ok h
    obtain ⟨_, -, h⟩ := bind_ok h
    obtain ⟨_, -, h⟩ := bind_ok h
    obtain ⟨_, -, h⟩ := bind_ok h
    cases h
  · cases h

lemma fourteen_getBlocks : Fourteen decodeGetBlocks := by
  intro fields b h
  unfold decodeGetBlocks at h
  split at h
  · obtain ⟨_, -, h⟩ := bind_ok h
    obtain ⟨_, -, h⟩ := bind_ok h
    cases h
  · cases h

lemma fourteen_inventory : Fourteen decodeInventory := by
  intro fields b h
  unfold decodeInventory at h
  split at h
  · exact absurd h (map_ne_block (by simp))
  · cases h

lemma fourteen_headers : Fourteen decodeHeaders := by
  intro fields b h
  unfold decodeHeaders at h
  split at h
  · exact absurd h (map_ne_block (by simp))
  · cases h

lemma fourteen_getPeers : Fourteen decodeGetPeers := by
  intro fields b h
  unfold decodeGetPeers at h
  split at h
  · exact absurd h (map_ne_block (by simp))
  · cases h

lemma fourteen_peers (addr : AddrText) : Fourteen (decodePeers addr) := by
  intro fields b h
  unfold decodePeers at h
  split at h
  · exact absurd h (map_ne_block (by simp))
  · cases h

lemma fourteen_block : Fourteen decodeBlock := by
  intro fields b h
  unfold decodeBlock at h
  split at h
  · rfl
  · cases h

lemma fourteen_endBlocks : Fourteen decodeEndBlocks := by
  intro fields b h
  unfold decodeEndBlocks at h
  split at h <;> cases h

lemma fourteen_messageDecoder (addr : AddrText) (kind : Str) :
    Fourteen (messageDecoder addr kind) := by
  have hunknown : ∀ e, Fourteen (fun _ => .error e) := fun e fields b h => nomatch h
  unfold messageDecoder
  refine iteInduction (fun _ => fourteen_hello addr) fun _ => ?_
  refine iteInduction (fun _ => fourteen_getBlocks) fun _ => ?_
  refine iteInduction (fun _ => fourteen_locator _ _ fun _ _ _ h => nomatch h) fun _ => ?_
  refine iteInduction (fun _ => fourteen_locator _ _ fun _ _ _ h => nomatch h) fun _ => ?_
  refine iteInduction (fun _ => fourteen_inventory) fun _ => ?_
  refine iteInduction (fun _ => fourteen_locator _ _ fun _ _ _ h => nomatch h) fun _ => ?_
  refine iteInduction (fun _ => fourteen_headers) fun _ => ?_
  refine iteInduction (fun _ => fourteen_getPeers) fun _ => ?_
  refine iteInduction (fun _ => fourteen_peers addr) fun _ => ?_
  refine iteInduction (fun _ => fourteen_block) fun _ => ?_
  exact iteInduction (fun _ => fourteen_endBlocks) fun _ => hunknown _

/-- A line read as a block has the thirteen bars of one. -/
lemma decodeBlockMessage_bars {addr : AddrText} {line : Str} {b : Block}
    (h : decodeBlockMessage addr line = .ok b) : line.count '|' = 13 := by
  obtain ⟨m, hm, h⟩ := bind_ok h
  unfold decodeMessage at hm
  simp only at hm
  split at hm
  · split at h
    · have hlen := fourteen_messageDecoder addr _ _ _ hm
      rw [length_splitOn, count_trimEnd] at hlen
      omega
    · cases h
  · cases hm

end Chesscoin.BlockCodec

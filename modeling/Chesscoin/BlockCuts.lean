import Chesscoin.BlockCodec
import Chesscoin.Validation

/-!
Parts of block messages.

A part of a message is read as a block when it has all its bars and then nothing, or ends with
whole entries, or within the last weight of an entry behind a digit. It is then the message of
another block: the header is the same, but the trace has become shorter or ends in another
state, so the two blocks cannot both be valid. Any other part is not read at all.
-/

namespace Chesscoin.BlockCuts

open Chesscoin.Lib.ByteString Chesscoin.Lib.Text Chesscoin.Lib.Fallible Chesscoin.Domain
  Chesscoin.Simulator Chesscoin.Validation Chesscoin.Wire Chesscoin.BlockCodec

variable {addr : AddrText} {sep : Char} {count n : ℕ} {last : Str → Bool}

/-! ### Shapes -/

/-- The text has so many pieces, and the last of them has its shape. -/
def endsWhole (sep : Char) (count : ℕ) (last : Str → Bool) (s : Str) : Bool :=
  (s.splitOn sep).length == count && last ((s.splitOn sep).getLastD [])

def modelShape : Str → Bool := endsWhole '_' modelWidth endsWithDigit
def entryShape : Str → Bool := endsWhole ',' 10 modelShape
def traceShape (s : Str) : Bool := s.isEmpty || entryShape ((s.splitOn ';').getLastD [])
def blockShape : Str → Bool := endsWhole '|' 14 traceShape

lemma endsWhole_iff (s : Str) : endsWhole sep count last s = true ↔
    (s.splitOn sep).length = count ∧ last ((s.splitOn sep).getLastD []) = true := by
  rw [endsWhole, Bool.and_eq_true, beq_iff_eq]

/-- A part that ends whole is cut within the last piece, and what is left of it has its shape. -/
lemma endsWhole_take {pieces : List Str} {final : Str} (h : ∀ s ∈ pieces ++ [final], sep ∉ s)
    (hn : n < ([sep].intercalate (pieces ++ [final])).length)
    (hshape : endsWhole sep (pieces.length + 1) last
      (([sep].intercalate (pieces ++ [final])).take n) = true) :
    ∃ r < final.length, last (final.take r) = true ∧
      ([sep].intercalate (pieces ++ [final])).take n =
        [sep].intercalate (pieces ++ [final.take r]) := by
  obtain ⟨hcount, hlast⟩ := (endsWhole_iff _).mp hshape
  obtain ⟨r, hr, htake, hparts⟩ := take_last_piece h hn hcount
  refine ⟨r, hr, ?_, htake⟩
  rw [hparts] at hlast
  simpa using hlast

/-! ### What is read has a shape -/

lemma decodeWeights_last {fields : List Str}
    {ws : { weights : List Int64 // weights.length = fields.length }}
    (h : decodeWeights fields = .ok ws) (hne : fields ≠ []) :
    endsWithDigit (fields.getLastD []) = true := by
  induction fields with
  | nil => exact absurd rfl hne
  | cons field rest ih =>
    obtain ⟨weight, hweight, h⟩ := bind_ok h
    obtain ⟨ws', hrest, -⟩ := bind_ok h
    cases rest with
    | nil =>
      unfold parseField at hweight
      split at hweight
      · next hparse =>
        obtain ⟨z, hz, -⟩ := Option.map_eq_some_iff.mp hparse
        exact endsWithDigit_of_parseSigned hz
      · cases hweight
    | cons b rest => exact ih hrest (List.cons_ne_nil b rest)

lemma modelShape_of_decode {s : Str} {m : ModelState} (h : decodeModel s = .ok m) :
    modelShape s = true := by
  unfold decodeModel at h
  simp only at h
  split at h
  · next hlen =>
    obtain ⟨ws, hws, -⟩ := bind_ok h
    refine (endsWhole_iff s).mpr ⟨hlen, decodeWeights_last hws fun hnil => ?_⟩
    rw [hnil] at hlen
    cases hlen
  · cases h

lemma entryShape_of_decode {s : Str} {e : TraceEntry} (h : decodeEntry s = .ok e) :
    entryShape s = true := by
  unfold decodeEntry at h
  split at h
  · next hsplit =>
    obtain ⟨_, -, h⟩ := bind_ok h
    obtain ⟨_, -, h⟩ := bind_ok h
    obtain ⟨_, -, h⟩ := bind_ok h
    obtain ⟨_, -, h⟩ := bind_ok h
    obtain ⟨_, -, h⟩ := bind_ok h
    obtain ⟨_, -, h⟩ := bind_ok h
    obtain ⟨_, -, h⟩ := bind_ok h
    obtain ⟨_, -, h⟩ := bind_ok h
    obtain ⟨_, -, h⟩ := bind_ok h
    obtain ⟨_, hmodel, -⟩ := bind_ok h
    refine (endsWhole_iff s).mpr ?_
    rw [hsplit]
    exact ⟨rfl, modelShape_of_decode hmodel⟩
  · cases h

lemma collect_last {α : Type} {decode : Str → Except String α} {l : List Str} {as : List α}
    (h : collect decode l = .ok as) (hne : l ≠ []) : ∃ a, decode (l.getLastD []) = .ok a := by
  induction l generalizing as with
  | nil => exact absurd rfl hne
  | cons s rest ih =>
    obtain ⟨a, ha, h⟩ := bind_ok h
    obtain ⟨as', hrest, -⟩ := bind_ok h
    cases rest with
    | nil => exact ⟨a, ha⟩
    | cons s' rest => exact ih hrest (List.cons_ne_nil s' rest)

lemma traceShape_of_decode {s : Str} {es : List TraceEntry}
    (h : decodeList ';' decodeEntry s = .ok es) : traceShape s = true := by
  unfold decodeList at h
  split at h
  · next hnil =>
    subst hnil
    rfl
  · obtain ⟨e, he⟩ := collect_last h (List.splitOn_ne_nil _ _)
    rw [traceShape, entryShape_of_decode he, Bool.or_true]

lemma blockShape_of_decode {fields : List Str} {m : PeerMessage} (h : decodeBlock fields = .ok m) :
    fields.length = 14 ∧ traceShape (fields.getLastD []) = true := by
  unfold decodeBlock at h
  split at h
  · obtain ⟨_, -, h⟩ := bind_ok h
    obtain ⟨_, -, h⟩ := bind_ok h
    obtain ⟨_, -, h⟩ := bind_ok h
    obtain ⟨_, -, h⟩ := bind_ok h
    obtain ⟨_, -, h⟩ := bind_ok h
    obtain ⟨_, -, h⟩ := bind_ok h
    obtain ⟨_, -, h⟩ := bind_ok h
    obtain ⟨_, -, h⟩ := bind_ok h
    obtain ⟨_, -, h⟩ := bind_ok h
    obtain ⟨_, hentries, -⟩ := bind_ok h
    exact ⟨rfl, traceShape_of_decode hentries⟩
  · cases h

/-! ### What has a shape is written -/

lemma model_take {m : ModelState} (hn : n < (encodeModel m).length)
    (hshape : modelShape ((encodeModel m).take n) = true) :
    ∃ m' ≠ m, (encodeModel m).take n = encodeModel m' := by
  obtain ⟨weights, hwidth⟩ := m
  obtain ⟨ws, w, rfl⟩ : ∃ ws w, weights = ws ++ [w] := by
    rcases List.eq_nil_or_concat weights with rfl | ⟨ws, w, hweights⟩
    · cases hwidth
    · exact ⟨ws, w, by rw [hweights, List.concat_eq_append]⟩
  have hpieces : (ws ++ [w]).map showI64 = ws.map showI64 ++ [showI64 w] := by simp
  have hwidth' : modelWidth = (ws.map showI64).length + 1 := by
    rw [← hwidth]
    simp
  simp only [encodeModel, join, hpieces] at hn hshape ⊢
  rw [modelShape, hwidth'] at hshape
  have hsep : ∀ s ∈ ws.map showI64 ++ [showI64 w], '_' ∉ s := by
    intro s hs hm
    rw [← hpieces] at hs
    obtain ⟨v, -, rfl⟩ := List.mem_map.mp hs
    exact absurd (showI64_subset v hm) (by decide)
  obtain ⟨r, hr, hend, htake⟩ := endsWhole_take hsep hn hshape
  have hlo : -((2 ^ 63 : ℕ) : ℤ) ≤ w.toInt := by simpa using w.le_toInt
  have hhi : w.toInt < ((2 ^ 63 : ℕ) : ℤ) := by simpa using w.toInt_lt
  obtain ⟨z, hz, hne, hlo', hhi'⟩ := showInt_take hlo hhi hr hend
  have hback : (Int64.ofInt z).toInt = z :=
    Int64.toInt_ofInt_of_le (by simpa using hlo') (by simpa using hhi')
  refine ⟨⟨ws ++ [Int64.ofInt z], by simpa using hwidth⟩, fun heq => ?_, ?_⟩
  · have hlast := List.append_inj_right' (congrArg ModelState.weights heq) rfl
    rw [List.cons.injEq] at hlast
    rw [← hlast.1, hback] at hne
    exact hne rfl
  · rw [htake]
    simp only [List.map_append, List.map_cons, List.map_nil]
    rw [showI64, hz, showI64, hback]

/-- The fields of an entry before the state it ends in. -/
def entryFields (e : TraceEntry) : List Str :=
  [e.previousCommitment.toHex, e.commitment.toHex, showU64 e.step.index, showU64 e.step.seed,
    showU64 e.step.batchId, showU64 e.step.weightIndex, showI64 e.step.gradient,
    showI64 e.step.learningRatePpm, encodeModel e.step.stateBefore]

lemma entry_take {e : TraceEntry} (hn : n < (encodeEntry e).length)
    (hshape : entryShape ((encodeEntry e).take n) = true) :
    ∃ e', (encodeEntry e).take n = encodeEntry e' ∧ e'.step.stateAfter ≠ e.step.stateAfter := by
  have hfields : encodeEntry e =
      [','].intercalate (entryFields e ++ [encodeModel e.step.stateAfter]) := rfl
  have hsep : ∀ s ∈ entryFields e ++ [encodeModel e.step.stateAfter], ',' ∉ s := by
    have hfield : ∀ s ∈ entryFields e ++ [encodeModel e.step.stateAfter], s ⊆ fieldAlphabet := by
      simp [entryFields, showU64_subset, showI64_field, toHex_field, encodeModel_subset]
    exact fun s hs hm => absurd (hfield s hs hm) (by decide)
  rw [hfields] at hn hshape ⊢
  obtain ⟨r, hr, hmodel, htake⟩ := endsWhole_take hsep hn hshape
  obtain ⟨m, hne, hm⟩ := model_take hr hmodel
  exact ⟨{ e with step := { e.step with stateAfter := m } }, by rw [htake, hm]; rfl, hne⟩

/-- The entries are not as many, or they end in another state. -/
def EndsElsewhere (es es' : List TraceEntry) : Prop :=
  es'.length ≠ es.length ∨
    es'.getLast?.map (·.step.stateAfter) ≠ es.getLast?.map (·.step.stateAfter)

lemma semicolon_notMem_entry (e : TraceEntry) : ';' ∉ encodeEntry e := fun hm =>
  absurd (encodeEntry_subset e hm) (by decide)

/-- A part of a trace ends with a part of an entry, or with all of one that is not the last. -/
lemma entries_take {es : List TraceEntry} (hne : es.map encodeEntry ≠ [])
    (hn : n < ([';'].intercalate (es.map encodeEntry)).length) :
    ∃ es₁ e es₂ r, es = es₁ ++ e :: es₂ ∧
      ([';'].intercalate (es.map encodeEntry)).take n =
        [';'].intercalate (es₁.map encodeEntry ++ [(encodeEntry e).take r]) ∧
      (([';'].intercalate (es.map encodeEntry)).take n).splitOn ';' =
        es₁.map encodeEntry ++ [(encodeEntry e).take r] ∧
      (r < (encodeEntry e).length ∨ r = (encodeEntry e).length ∧ es₂ ≠ []) := by
  obtain ⟨before, piece, after, r, hsplit, htake, hr, hafter⟩ := take_intercalate ';' hne hn
  obtain ⟨es₁, rest, rfl, rfl, hrest⟩ := List.map_eq_append_iff.mp hsplit
  obtain ⟨e, es₂, rfl, rfl, rfl⟩ := List.map_eq_cons_iff.mp hrest
  have hbefore : ∀ s ∈ es₁.map encodeEntry, ';' ∉ s := by
    intro s hs
    obtain ⟨e, -, rfl⟩ := List.mem_map.mp hs
    exact semicolon_notMem_entry e
  have hpart : ';' ∉ (encodeEntry e).take r := fun hm =>
    semicolon_notMem_entry e (List.mem_of_mem_take hm)
  refine ⟨es₁, e, es₂, r, rfl, htake, by rw [htake, splitOn_join hbefore hpart], ?_⟩
  rcases Nat.eq_or_lt_of_le hr with hall | hlt
  · refine .inr ⟨hall, fun hnone => ?_⟩
    have hshort := hafter (List.map_eq_nil_iff.mpr hnone)
    omega
  · exact .inl hlt

lemma trace_take {es : List TraceEntry} (hn : n < (join ';' (es.map encodeEntry)).length)
    (hshape : traceShape ((join ';' (es.map encodeEntry)).take n) = true) :
    ∃ es', (join ';' (es.map encodeEntry)).take n = join ';' (es'.map encodeEntry) ∧
      EndsElsewhere es es' := by
  have hne : es.map encodeEntry ≠ [] := by
    intro hnil
    rw [hnil] at hn
    exact absurd hn (Nat.not_lt_zero n)
  by_cases hzero : n = 0
  · subst hzero
    refine ⟨[], rfl, .inl fun hlen => hne ?_⟩
    rw [List.length_eq_zero_iff.mp hlen.symm, List.map_nil]
  · rw [join] at hn hshape ⊢
    obtain ⟨es₁, e, es₂, r, hes, htake, hparts, hr⟩ := entries_take hne hn
    have hlong : ([';'].intercalate (es.map encodeEntry)).take n ≠ [] := by
      intro hnil
      rcases List.take_eq_nil_iff.mp hnil with h0 | h0
      · exact hzero h0
      · rw [h0] at hn
        exact absurd hn (Nat.not_lt_zero n)
    have hentry : entryShape ((encodeEntry e).take r) = true := by
      rw [traceShape, List.isEmpty_eq_false_iff.mpr hlong, Bool.false_or, hparts] at hshape
      simpa using hshape
    have hwritten : ∀ e', (encodeEntry e).take r = encodeEntry e' →
        ([';'].intercalate (es.map encodeEntry)).take n =
          join ';' ((es₁ ++ [e']).map encodeEntry) := by
      intro e' he'
      rw [htake, he', List.map_append, List.map_cons, List.map_nil, join]
    rcases hr with hlt | ⟨hall, hmore⟩
    · obtain ⟨e', he', hstate⟩ := entry_take hlt hentry
      refine ⟨es₁ ++ [e'], hwritten e' he', ?_⟩
      rw [hes]
      cases es₂ with
      | nil =>
        refine .inr fun hlast => hstate ?_
        simpa using hlast
      | cons e₂ es₂ =>
        refine .inl fun hlen => ?_
        simp only [List.length_append, List.length_cons, List.length_nil] at hlen
        omega
    · refine ⟨es₁ ++ [e], hwritten e (by rw [hall, List.take_length]), .inl fun hlen => hmore ?_⟩
      rw [hes] at hlen
      simp only [List.length_append, List.length_cons, List.length_nil] at hlen
      exact List.length_eq_zero_iff.mp (by omega)

/-- The block with other entries in its trace. -/
def withEntries (b : Block) (es : List TraceEntry) : Block :=
  { b with trace := { b.trace with entries := es } }

/-- The fields of a message before the entries. -/
def headFields (b : Block) : List Str :=
  "BLOCK".toList :: (blockFields b).take 12

lemma encodeBlockMessage_eq (b : Block) : encodeBlockMessage b =
    ['|'].intercalate (headFields b ++ [join ';' (b.trace.entries.map encodeEntry)]) := rfl

lemma bar_notMem_fields (b : Block) :
    ∀ s ∈ headFields b ++ [join ';' (b.trace.entries.map encodeEntry)], '|' ∉ s := by
  have hfield : ∀ s ∈ "BLOCK".toList :: blockFields b, '|' ∉ s := by
    intro s hs hm
    rcases List.mem_cons.mp hs with rfl | hs
    · exact absurd hm (by decide)
    · exact absurd (blockFields_subset b s hs hm) (by decide)
  exact hfield

/-- **A part with the shape of a block** is the message of the block with other entries. -/
theorem block_take {b : Block} (hn : n < (encodeBlockMessage b).length)
    (hshape : blockShape ((encodeBlockMessage b).take n) = true) :
    ∃ es, (encodeBlockMessage b).take n = encodeBlockMessage (withEntries b es) ∧
      EndsElsewhere b.trace.entries es := by
  rw [encodeBlockMessage_eq] at hn hshape ⊢
  obtain ⟨r, hr, htrace, htake⟩ := endsWhole_take (bar_notMem_fields b) hn hshape
  obtain ⟨es, hes, helse⟩ := trace_take hr htrace
  exact ⟨es, by rw [htake, hes]; rfl, helse⟩

/-- A part with all its bars has the fields of the message, and a part of the last one. -/
lemma splitOn_take {b : Block} (hn : n < (encodeBlockMessage b).length)
    (hbars : ((encodeBlockMessage b).take n).count '|' = 13) :
    ∃ x, ((encodeBlockMessage b).take n).splitOn '|' = headFields b ++ [x] := by
  have hcount : (((encodeBlockMessage b).take n).splitOn '|').length =
      (headFields b).length + 1 := by
    rw [length_splitOn, hbars]
    rfl
  rw [encodeBlockMessage_eq] at hn hcount ⊢
  obtain ⟨r, -, -, hparts⟩ := take_last_piece (bar_notMem_fields b) hn hcount
  exact ⟨_, hparts⟩

/-- **A part without it** is not read. -/
theorem decodeBlockMessage_take {b : Block} (hn : n < (encodeBlockMessage b).length)
    (hshape : blockShape ((encodeBlockMessage b).take n) = false) :
    ∃ e, decodeBlockMessage addr ((encodeBlockMessage b).take n) = .error e := by
  cases hd : decodeBlockMessage addr ((encodeBlockMessage b).take n) with
  | error e => exact ⟨e, rfl⟩
  | ok b' =>
    obtain ⟨x, hfields⟩ := splitOn_take hn (decodeBlockMessage_bars hd)
    have htrim : trimEnd ((encodeBlockMessage b).take n) = (encodeBlockMessage b).take n :=
      trimEnd_eq_self (fun hm => encodeBlock_noReturn b (List.mem_of_mem_take hm))
        fun hm => encodeBlock_noNewline b (List.mem_of_mem_take hm)
    obtain ⟨m, hm, -⟩ := bind_ok hd
    rw [decodeMessage, htrim, hfields] at hm
    have hwhole : blockShape ((encodeBlockMessage b).take n) = true := by
      refine (endsWhole_iff _).mpr ?_
      rw [hfields]
      exact blockShape_of_decode hm
    rw [hshape] at hwhole
    cases hwhole

/-! ### Validity -/

lemma continuous_last {candidate s : ModelState} {es : List TraceEntry}
    (h : Continuous candidate s es) :
    (es.getLast?.map (·.step.stateAfter)).getD s = candidate := by
  induction es generalizing s with
  | nil => exact h.symm
  | cons e es ih =>
    have hrest := ih h.2
    cases es with
    | nil => exact hrest
    | cons e' es =>
      rw [List.getLast?_cons_cons]
      obtain ⟨final, hfinal⟩ : ∃ final, (e' :: es).getLast? = some final :=
        ⟨_, List.getLast?_eq_some_getLast (List.cons_ne_nil e' es)⟩
      rw [hfinal] at hrest ⊢
      exact hrest

/-- **At most one of the two is valid.** -/
theorem not_valid_withEntries {hasher : HashPort} {sampler : SamplingPort} {config : ChainConfig}
    {parent : ParentContext} {b : Block} {es : List TraceEntry}
    (h : Valid hasher sampler config parent b) (helse : EndsElsewhere b.trace.entries es) :
    ¬ Valid hasher sampler config parent (withEntries b es) := by
  intro h'
  have hlen : es.length = b.trace.entries.length := h'.traceLength.trans h.traceLength.symm
  rcases helse with hother | hother
  · exact hother hlen
  · have hlast := continuous_last h.continuous
    have hlast' : (es.getLast?.map (·.step.stateAfter)).getD b.trace.initialModel =
        b.trace.candidateModel := continuous_last h'.continuous
    cases hes : es.getLast? with
    | none =>
      rw [List.getLast?_eq_none_iff] at hes
      subst hes
      rw [List.length_nil] at hlen
      rw [List.length_eq_zero_iff.mp hlen.symm] at hother
      exact hother rfl
    | some e =>
      cases hb : b.trace.entries.getLast? with
      | none =>
        rw [List.getLast?_eq_none_iff] at hb
        rw [hb, List.length_nil, List.length_eq_zero_iff] at hlen
        subst hlen
        cases hes
      | some e' =>
        rw [hes, Option.map_some, Option.getD_some] at hlast'
        rw [hb, Option.map_some, Option.getD_some] at hlast
        rw [hes, hb, Option.map_some, Option.map_some, hlast, hlast'] at hother
        exact hother rfl

end Chesscoin.BlockCuts

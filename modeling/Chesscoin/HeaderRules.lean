import Chesscoin.Agreement
import Chesscoin.Overlap

/-!
The header rules, checked twice.

Screening checks a list of headers against the active chain: the place of the first parent gives
the height, and each header follows the one before it. Validation checks a block against the node
of its parent in the tree. Whatever has passed the first passes the header part of the second, so
a block whose header was screened can only be refused for its trace.
-/

namespace Chesscoin.HeaderRules

open Chesscoin.Lib.Linked Chesscoin.Domain Chesscoin.Simulator Chesscoin.Validation
  Chesscoin.Mining Chesscoin.ForkChoice Chesscoin.ForkTree Chesscoin.Wire Chesscoin.Runtime
  Chesscoin.Runs Chesscoin.ActiveView Chesscoin.Locator Chesscoin.Agreement Chesscoin.Screening
  Chesscoin.Overlap Chesscoin.Adapters

variable {hasher : HashPort} {sampler : SamplingPort} {addr : AddrText}
  {H : BlockHeader → Prop} {fc fc' : ForkChoiceState} {st : NodeState}

/-! ### Errors -/

/-- The error is about the models or the trace of a block. -/
def ConcernsTrace : BlockValidationError → Prop
  | .wrongModelBefore => True
  | .wrongModelAfter => True
  | .wrongTraceLength _ _ => True
  | .wrongTraceContinuity _ => True
  | .wrongTraceRoot => True
  | .invalidSample _ => True
  | .wrongHeight _ _ => False
  | .wrongPreviousBlock => False
  | .wrongSampleCount _ _ => False
  | .insufficientWork _ _ => False

/-- **A block whose header follows its parent** is refused for its trace only. -/
theorem validateBlockAfter_concerns {config : ChainConfig} {parent : ParentContext}
    {block : Block} {e : BlockValidationError}
    (hheight : block.header.height = parent.nextHeight)
    (hprevious : block.header.previousBlock = parent.hash)
    (hcount : block.header.sampleCount = config.samplesPerBlock)
    (hwork : config.difficultyZeroBits.toNat ≤ (blockHash hasher block).leadingZeroBits)
    (h : validateBlockAfter hasher sampler config parent block = .error e) :
    ConcernsTrace e := by
  unfold validateBlockAfter at h
  rw [if_neg (not_not.mpr hheight), if_neg (not_not.mpr hprevious)] at h
  split at h
  · cases h
    trivial
  split at h
  · cases h
    trivial
  split at h
  · cases h
    trivial
  rw [if_neg (not_not.mpr hcount)] at h
  split at h
  · cases h
    trivial
  split at h
  · next e' hc =>
    cases h
    rw [validateCommitments_error hc]
    trivial
  · split at h
    · next e' hs =>
      cases h
      obtain ⟨index, rfl⟩ := validateStates_error hs
      trivial
    · rw [if_neg (not_lt.mpr hwork)] at h
      obtain ⟨index, -, rfl⟩ := validateSamples_error h
      trivial

/-! ### Bookkeeping -/

/-- The tree has the parent that screening expects, at the height it expects. -/
def Expects (fc : ForkChoiceState) (height : UInt64) (previous : Digest) : Prop :=
  (previous = Digest.zero ∧ height = 0) ∨
    previous ≠ Digest.zero ∧ ∃ p, fc.look previous = some p ∧ p.nextHeight = height

/-- What the tree gives a block with the expected parent to be validated in. -/
lemma parentContext_of_expects (h : Tree hasher sampler fc) {height : UInt64} {block : Block}
    (hexpects : Expects fc height block.header.previousBlock) :
    ∃ ctx score, fc.parentContext block = .ok (ctx, score) ∧ ctx.nextHeight = height ∧
      ctx.hash = block.header.previousBlock := by
  rcases hexpects with ⟨hz, rfl⟩ | ⟨hz, p, hp, rfl⟩
  · exact ⟨_, _, by rw [ForkChoiceState.parentContext, if_pos hz], rfl, hz.symm⟩
  · exact ⟨_, _, by rw [ForkChoiceState.parentContext, if_neg hz, hp], rfl, (h.stored _ p hp).hash⟩

/-- After the insertion of a block the next one is expected above it. -/
lemma expects_insertBlock (hown : OwnHashes hasher fun b => H b.header)
    (h : Tree hasher sampler fc) (hknown : ∀ k n, fc.look k = some n → H n.block.header)
    {block : Block} (hblock : H block.header) {hash : Digest}
    (hins : fc.insertBlock hasher sampler block = (.ok hash, fc')) :
    Expects fc' (block.header.height + 1) (blockHash hasher block) := by
  obtain ⟨n, hn⟩ := look_insertBlock_self hins
  have hstored := (h.of_insertBlock hins).stored _ n hn
  have hn' : H n.block.header :=
    known_of_insertBlock (P := fun b => H b.header) hins hknown hblock _ n hn
  have hheader := hown.distinct n.block block hn' hblock hstored.keyed
  exact .inr ⟨hown.nonzero block hblock, n, hn, by rw [hstored.nextHeight, hheader]⟩

/-- One header of a list that is accepted, and what is accepted after it. -/
lemma checkHeaders_cons {config : ChainConfig} {height : UInt64} {previous : Digest}
    {header : BlockHeader} {rest : List BlockHeader}
    (h : checkHeaders hasher config height previous (header :: rest) = .ok ()) :
    header.previousBlock = previous ∧ header.height = height ∧
      header.sampleCount = config.samplesPerBlock ∧
      config.difficultyZeroBits.toNat ≤ (blockHeaderHash hasher header).leadingZeroBits ∧
      checkHeaders hasher config (height + 1) (blockHeaderHash hasher header) rest = .ok () := by
  rw [checkHeaders] at h
  split at h
  · cases h
  · next hprevious =>
    split at h
    · cases h
    · next hheight =>
      split at h
      · cases h
      · next hcount =>
        simp only at h
        split at h
        · cases h
        · next hwork =>
          exact ⟨not_not.mp hprevious, not_not.mp hheight, not_not.mp hcount, not_lt.mp hwork, h⟩

/-! ### Insertions -/

/-- The error an insertion may fail with: it is about the trace of the block. -/
def OfTrace : ForkChoiceError → Prop
  | .unknownParent _ => False
  | .invalidBlock e => ConcernsTrace e

/-- **One insertion** of a block that screening expects. -/
theorem insertBlock_ofTrace (h : Tree hasher sampler fc) {block : Block} {e : ForkChoiceError}
    (hexpects : Expects fc block.header.height block.header.previousBlock)
    (hcount : block.header.sampleCount = fc.config.samplesPerBlock)
    (hwork : fc.config.difficultyZeroBits.toNat ≤ (blockHash hasher block).leadingZeroBits)
    (hins : fc.insertBlock hasher sampler block = (.error e, fc')) : OfTrace e := by
  obtain ⟨ctx, score, hctx, hheight, hhash⟩ := parentContext_of_expects h hexpects
  unfold ForkChoiceState.insertBlock at hins
  simp only [hctx] at hins
  split at hins
  · cases hins
  · split at hins
    · next e' hv =>
      cases hins
      exact validateBlockAfter_concerns hheight.symm hhash.symm hcount hwork hv
    · cases hins

/-- **Insertions in order**: as long as blocks go in, the next one is expected. -/
theorem insertAll_ofTrace (hown : OwnHashes hasher fun b => H b.header) {height : UInt64}
    {previous : Digest} {before after : List Block} {b : Block} {e : ForkChoiceError}
    (h : Tree hasher sampler fc) (hknown : ∀ k n, fc.look k = some n → H n.block.header)
    (hblocks : ∀ a ∈ before ++ b :: after, H a.header)
    (hcheck : checkHeaders hasher fc.config height previous
      ((before ++ b :: after).map (·.header)) = .ok ())
    (hexpects : Expects fc height previous)
    (hok : allAccepted hasher sampler fc before = true)
    (hins : (fc.insertAll hasher sampler before).insertBlock hasher sampler b = (.error e, fc')) :
    OfTrace e := by
  induction before generalizing fc height previous with
  | nil =>
    obtain ⟨rfl, rfl, hcount, hwork, -⟩ := checkHeaders_cons hcheck
    exact insertBlock_ofTrace h hexpects hcount hwork hins
  | cons a before ih =>
    obtain ⟨-, rfl, -, -, hrest⟩ := checkHeaders_cons hcheck
    rw [allAccepted] at hok
    split at hok
    · cases hok
    · next hash fc₁ hone =>
      have ha : H a.header := hblocks a (by simp)
      have hknown₁ : ∀ k n, fc₁.look k = some n → H n.block.header :=
        known_of_insertBlock (P := fun b => H b.header) hone hknown ha
      rw [insertAll_cons hone] at hins
      refine ih (h.of_insertBlock hone) hknown₁
        (fun b hb => hblocks b (List.mem_cons_of_mem a hb)) ?_
        (expects_insertBlock hown h hknown ha hone) hok hins
      rw [config_of_insertBlock hone]
      exact hrest

/-- A batch that fails fails at one of its blocks, once those before it have gone in. -/
lemma insertBatch_error {blocks : List Block} {e : ForkChoiceError}
    (h : insertBatch hasher sampler fc blocks = .error e) :
    ∃ before b after fc', blocks = before ++ b :: after ∧
      allAccepted hasher sampler fc before = true ∧
      (fc.insertAll hasher sampler before).insertBlock hasher sampler b = (.error e, fc') := by
  induction blocks generalizing fc with
  | nil => cases h
  | cons a blocks ih =>
    have hgo : ∀ {hash fc₁}, fc.insertBlock hasher sampler a = (.ok hash, fc₁) →
        insertBatch hasher sampler fc₁ blocks = .error e →
        ∃ before b after fc', a :: blocks = before ++ b :: after ∧
          allAccepted hasher sampler fc before = true ∧
          (fc.insertAll hasher sampler before).insertBlock hasher sampler b =
            (.error e, fc') := by
      intro hash fc₁ hone hrest
      obtain ⟨before, b, after, fc', rfl, hok, hins⟩ := ih hrest
      refine ⟨a :: before, b, after, fc', rfl, ?_, ?_⟩
      · rw [allAccepted, hone]
        exact hok
      · rwa [insertAll_cons hone]
    rw [insertBatch] at h
    split at h
    · next hc =>
      have hone : fc.insertBlock hasher sampler a = (.ok (blockHash hasher a), fc) := by
        simp [ForkChoiceState.insertBlock, hc]
      exact hgo hone h
    · split at h
      · next e' fc₁ hone =>
        cases h
        exact ⟨[], a, blocks, fc₁, rfl, rfl, hone⟩
      · next hash fc₁ hone => exact hgo hone h

/-! ### Screened headers -/

/-- Blocks with the hashes of some headers have these headers. -/
lemma headers_of_hashes (hown : OwnHashes hasher fun b => H b.header)
    {headers : List BlockHeader} {blocks : List Block} (hheaders : ∀ h ∈ headers, H h)
    (hblocks : ∀ b ∈ blocks, H b.header)
    (hhashes : blocks.map (blockHash hasher) = headers.map (blockHeaderHash hasher)) :
    headers = blocks.map (·.header) := by
  induction blocks generalizing headers with
  | nil => simpa using hhashes.symm
  | cons b blocks ih =>
    obtain ⟨header, rest, rfl, hhash, hrest⟩ := List.map_eq_cons_iff.mp hhashes.symm
    have hheader : header = b.header :=
      hown.distinct ⟨header, b.trace⟩ b (hheaders header (by simp)) (hblocks b (by simp)) hhash
    rw [List.map_cons, hheader, ← ih (fun h hh => hheaders h (by simp [hh]))
      (fun a ha => hblocks a (by simp [ha])) hrest.symm]

/-- Where screening starts, the tree is as screening expects. -/
lemma expects_start (hown : OwnHashes hasher fun b => H b.header)
    (h : Active hasher sampler (fun b => H b.header) st)
    {locator : List Digest} {firstParent : Digest} {height : UInt64}
    (hstart : expectedStart hasher st.chain locator firstParent = .ok height) :
    Expects st.forkChoice height firstParent := by
  unfold expectedStart at hstart
  split at hstart
  · next hz =>
    split at hstart
    · cases hstart
    · cases hstart
      exact .inl ⟨hz, rfl⟩
  · next hz =>
    split at hstart
    · cases hstart
    · split at hstart
      · cases hstart
      · next i hi =>
        cases hstart
        obtain ⟨hlt, hbeq, -⟩ := List.findIdx?_eq_some_iff_getElem.mp hi
        have hlen : i < st.chain.blocks.length := by simpa using hlt
        have hget : st.chain.blocks[i]? = some st.chain.blocks[i] := List.getElem?_eq_getElem hlen
        have hhash : blockHash hasher st.chain.blocks[i] = firstParent := by simpa using hbeq
        have hmem := List.mem_of_getElem? hget
        have hbest : st.chain.blocks[i] ∈ st.forkChoice.bestChain := by
          have hchain : st.forkChoice.bestChain = st.chain.blocks :=
            (congrArg ChainState.blocks h.chain).symm
          rwa [hchain]
        obtain ⟨p, hp⟩ := (containsBlock_iff _).mp (bestChain_contains h.tree _ hbest)
        have hstored := h.tree.stored _ p hp
        have hheader := hown.distinct p.block _ (h.known _ p hp) (Active.chain_known h _ hmem)
          hstored.keyed
        refine .inr ⟨hz, p, hhash ▸ hp, ?_⟩
        rw [hstored.nextHeight, hheader, (Active.replayed h).height hget]

/-- **Screened headers never fail on header rules.** When the headers of some blocks have been
accepted after a locator, inserting the blocks in their order fails, if at all, for the models or
the trace of a block. -/
theorem screened_headers_fail_in_trace (hasher : HashPort) (sampler : SamplingPort)
    (addr : AddrText) (H : BlockHeader → Prop) (hown : OwnHashes hasher fun b => H b.header)
    (st : NodeState) (hreach : Reachable hasher sampler addr (fun b => H b.header) st)
    (locator : List Digest) (headers : List BlockHeader) (blocks : List Block)
    (hheaders : ∀ h ∈ headers, H h) (hblocks : ∀ b ∈ blocks, H b.header)
    (haccepted : validateHeadersAfterLocator hasher st.chain locator headers = .ok ())
    (hhashes : blocks.map (blockHash hasher) = headers.map (blockHeaderHash hasher)) :
    (∀ before b after e fc', blocks = before ++ b :: after →
      allAccepted hasher sampler st.forkChoice before = true →
      (st.forkChoice.insertAll hasher sampler before).insertBlock hasher sampler b =
        (.error e, fc') → OfTrace e) ∧
      ∀ e, insertBatch hasher sampler st.forkChoice blocks = .error e → OfTrace e := by
  have h := Reachable.active hreach hown.nonzero
  have hsplit : ∀ before b after e fc', blocks = before ++ b :: after →
      allAccepted hasher sampler st.forkChoice before = true →
      (st.forkChoice.insertAll hasher sampler before).insertBlock hasher sampler b =
        (.error e, fc') → OfTrace e := by
    intro before b after e fc' hsplit hok hins
    have hheader := headers_of_hashes hown hheaders hblocks hhashes
    have hconfig : st.forkChoice.config = st.chain.config := by
      rw [h.chain]
      rfl
    obtain ⟨first, rest, hfirst⟩ := List.exists_cons_of_ne_nil (show headers ≠ [] from by
      rw [hheader, hsplit]
      simp)
    rw [hfirst, validateHeadersAfterLocator] at haccepted
    split at haccepted
    · cases haccepted
    · next height hstart =>
      rw [← hfirst, hheader, hsplit, ← hconfig] at haccepted
      exact insertAll_ofTrace hown h.tree h.known (hsplit ▸ hblocks) haccepted
        (expects_start hown h hstart) hok hins
  refine ⟨hsplit, fun e he => ?_⟩
  obtain ⟨before, b, after, fc', hblocks', hok, hins⟩ := insertBatch_error he
  exact hsplit before b after e fc' hblocks' hok hins

/-- A block with a good header and no steps. -/
def untraced : Block := ⟨(rival 1).header, { (rival 1).trace with entries := [] }⟩

lemma untraced_facts : blockHash toyHash untraced ≠ Digest.zero ∧
    validateHeadersAfterLocator toyHash rivalStart.chain [] [untraced.header] = .ok () ∧
    (rivalStart.forkChoice.insertBlock toyHash deterministicSampler untraced).1 =
      .error (.invalidBlock (.wrongTraceLength 1 0)) := by
  decide +kernel

theorem screened_headers_fail_in_trace_untraced :
    (rivalStart.forkChoice.insertBlock toyHash deterministicSampler untraced).1 =
        .error (.invalidBlock (.wrongTraceLength 1 0)) ∧
      OfTrace (.invalidBlock (.wrongTraceLength 1 0)) := by
  obtain ⟨hnonzero, haccepted, hins⟩ := untraced_facts
  have hown : OwnHashes toyHash fun b => b.header = untraced.header := by
    refine ⟨fun b hb => ?_, fun b b' hb hb' _ => hb.trans hb'.symm⟩
    rw [blockHash, hb]
    exact hnonzero
  have hreach : Reachable toyHash deterministicSampler ⟨fun _ => [], fun _ => none⟩
      (fun b => b.header = untraced.header) rivalStart := ⟨_, freshNode_start _, .refl⟩
  have h := screened_headers_fail_in_trace toyHash deterministicSampler _
    (· = untraced.header) hown rivalStart hreach [] [untraced.header] [untraced] (by simp)
    (by simp) haccepted (by simp only [List.map_cons, List.map_nil, blockHash])
  have hpair : rivalStart.forkChoice.insertBlock toyHash deterministicSampler untraced =
      (.error (.invalidBlock (.wrongTraceLength 1 0)),
        (rivalStart.forkChoice.insertBlock toyHash deterministicSampler untraced).2) := by
    rw [← hins]
  exact ⟨hins, h.1 [] untraced [] _ _ rfl rfl hpair⟩

end Chesscoin.HeaderRules

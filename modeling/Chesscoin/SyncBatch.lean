import Chesscoin.Runs

/-!
A batch from a peer is taken in as a whole or not at all.

The batch is first inserted into a copy of the fork choice, and applied block by block only
when that went through. The two ways go through the fork choice with the same insertions, so
the trial decides: after it no block of the batch is rejected, and the fork choice becomes the
one the trial ended in. Nothing about the state or the hash is assumed.
-/

namespace Chesscoin.SyncBatch

open Chesscoin.Lib.Linked Chesscoin.Lib.Text Chesscoin.Domain Chesscoin.Simulator
  Chesscoin.Validation Chesscoin.ForkChoice Chesscoin.ForkTree Chesscoin.Wire
  Chesscoin.Runtime Chesscoin.Runs

variable {hasher : HashPort} {sampler : SamplingPort} {addr : AddrText}

/-! ### The trial and the application -/

/-- **The application follows the trial.** -/
theorem applyBatch_of_insertBatch {blocks : List Block} {trial : ForkChoiceState}
    {st : NodeState} (h : insertBatch hasher sampler st.forkChoice blocks = .ok trial) :
    ∃ st', applyBatch hasher sampler blocks st = (.ok (), st') ∧ st'.forkChoice = trial := by
  induction blocks generalizing st with
  | nil =>
    cases h
    exact ⟨st, rfl, rfl⟩
  | cons block blocks ih =>
    rw [insertBatch] at h
    rcases applyIncomingBlock_cases hasher sampler block .sync st with
      ⟨hc, hr⟩ | ⟨e, hins, hr⟩ | ⟨st₁, hnew, hins, -, -, hr⟩
    · rw [if_pos hc] at h
      obtain ⟨st', happly, hfc⟩ := ih h
      exact ⟨st', by rw [applyBatch, hr]; exact happly, hfc⟩
    · split at h
      · next hc =>
        have hknown : st.forkChoice.insertBlock hasher sampler block =
            (.ok (blockHash hasher block), st.forkChoice) := by
          simp [ForkChoiceState.insertBlock, hc]
        rw [hknown] at hins
        cases hins
      · rw [hins] at h
        cases h
    · rw [if_neg (by simp [(not_containsBlock_iff _).mpr hnew]), hins] at h
      obtain ⟨st', happly, hfc⟩ := ih h
      exact ⟨st', by rw [applyBatch, hr]; exact happly, hfc⟩

lemma insertBatch_extends {blocks : List Block} {fc trial : ForkChoiceState}
    (h : insertBatch hasher sampler fc blocks = .ok trial) : Extends fc.look trial.look := by
  induction blocks generalizing fc with
  | nil =>
    cases h
    exact Extends.refl _
  | cons block blocks ih =>
    rw [insertBatch] at h
    split at h
    · exact ih h
    · split at h
      · cases h
      · next hash fc' hins =>
        exact (extends_of_insertBlock hins).trans (ih h)

/-- After the trial every block of the batch is known. -/
lemma insertBatch_contains {blocks : List Block} {fc trial : ForkChoiceState}
    (h : insertBatch hasher sampler fc blocks = .ok trial) :
    ∀ b ∈ blocks, trial.containsBlock (blockHash hasher b) = true := by
  induction blocks generalizing fc with
  | nil => exact fun b hb => nomatch hb
  | cons block blocks ih =>
    rw [insertBatch] at h
    intro b hb
    split at h
    · next hc =>
      rcases List.mem_cons.mp hb with rfl | hb
      · obtain ⟨n, hn⟩ := (containsBlock_iff _).mp hc
        exact (containsBlock_iff _).mpr ⟨n, insertBatch_extends h _ _ hn⟩
      · exact ih h b hb
    · split at h
      · cases h
      · next hash fc' hins =>
        rcases List.mem_cons.mp hb with rfl | hb
        · obtain ⟨n, hn⟩ := look_insertBlock_self hins
          exact (containsBlock_iff _).mpr ⟨n, insertBatch_extends h _ _ hn⟩
        · exact ih h b hb

/-! ### The answer -/

/-- The blocks of a complete answer have the expected hashes, in their order. -/
lemma receiveBlocks_hashes {wire : WireConfig} {expected : List Digest}
    {received blocks : List Block} {ls : List (Except IncomingReadError Str)}
    (hreceived : received.map (blockHash hasher) = expected.take received.length)
    (h : receiveBlocks hasher addr wire expected received ls = .complete blocks) :
    blocks.map (blockHash hasher) = expected := by
  induction ls generalizing received with
  | nil => cases h
  | cons l ls ih =>
    cases l with
    | error e => cases e <;> cases h
    | ok line =>
      simp only [receiveBlocks] at h
      split at h
      · cases h
      · next block _ =>
        split at h
        · cases h
        · next hash hget =>
          split at h
          · cases h
          · next heq =>
            refine ih ?_ h
            rw [List.map_append, hreceived, List.length_append, List.length_singleton,
              List.take_add_one, hget, ← not_not.mp heq]
            rfl
      · split at h
        · next hlen =>
          cases h
          rw [hreceived, hlen, List.take_length]
        · cases h
      · cases h

/-- A batch that passes the trial is applied as a whole. -/
lemma applyBatch_of_validate {blocks : List Block} {st : NodeState}
    (h : validateSyncBatch hasher sampler blocks st = .ok ()) :
    ∃ trial st', insertBatch hasher sampler st.forkChoice blocks = .ok trial ∧
      applyBatch hasher sampler blocks st = (.ok (), st') ∧ st'.forkChoice = trial := by
  unfold validateSyncBatch at h
  split at h
  · cases h
  · next trial hins =>
    obtain ⟨st', happly, hfc⟩ := applyBatch_of_insertBatch hins
    exact ⟨trial, st', hins, happly, hfc⟩

/-- What a request may come to: a failure that leaves the state as it was, but for the count
of oversized messages, or a success after which every expected hash is known. -/
def AllOrNothing (expected : List Digest) (st : NodeState) :
    Except Unit Unit × NodeState → Prop
  | (.error (), st') =>
    st' = st ∨ st' = { st with oversizedMessages := st.oversizedMessages + 1 }
  | (.ok (), st') => ∀ hash ∈ expected, st'.forkChoice.containsBlock hash = true

lemma settleAnswer_allOrNothing {answer : Answer} {expected : List Digest} (st : NodeState)
    (hhashes : ∀ blocks, answer = .complete blocks → blocks.map (blockHash hasher) = expected) :
    AllOrNothing expected st (settleAnswer hasher sampler answer st) := by
  cases answer with
  | oversized => exact .inr rfl
  | refused => exact .inl rfl
  | complete blocks =>
    cases hv : validateSyncBatch hasher sampler blocks st with
    | error e =>
      simp only [settleAnswer, hv]
      exact .inl rfl
    | ok u =>
      obtain ⟨trial, st', hins, happly, hfc⟩ := applyBatch_of_validate hv
      simp only [settleAnswer, hv, happly]
      intro hash hmem
      rw [← hhashes blocks rfl] at hmem
      obtain ⟨b, hb, rfl⟩ := List.mem_map.mp hmem
      rw [hfc]
      exact insertBatch_contains hins b hb

/-- **Sync batches are all or nothing.** A request to a peer fails and leaves the state as it
was, or succeeds with every expected hash known. When a batch passes the trial, applying it
rejects no block and ends in the fork choice of the trial. -/
theorem sync_batch_all_or_nothing (hasher : HashPort) (sampler : SamplingPort) (addr : AddrText)
    (peer : Str → Option Stream) (locator expected : List Digest) (st : NodeState) :
    AllOrNothing expected st
        (blocksFromPeer hasher sampler addr peer locator expected st) ∧
      ∀ blocks, validateSyncBatch hasher sampler blocks st = .ok () →
        ∃ trial st', insertBatch hasher sampler st.forkChoice blocks = .ok trial ∧
          applyBatch hasher sampler blocks st = (.ok (), st') ∧ st'.forkChoice = trial := by
  refine ⟨?_, fun blocks h => applyBatch_of_validate h⟩
  unfold blocksFromPeer
  simp only
  split
  · exact .inl rfl
  · exact settleAnswer_allOrNothing st fun blocks h => receiveBlocks_hashes rfl h

end Chesscoin.SyncBatch

import Chesscoin.LocalMining
import Chesscoin.Operations
import Chesscoin.Overlap

/-!
The books of a node: what it knows against what it has counted.

Three places take a block in, each with a counter of its own: mining, gossip and sync. Gossip
and sync ask first whether the block is known. Mining does not ask, and need not: a child of
the best tip cannot be there already. So the blocks known are those of the start and those
counted since, and no block that came by gossip is lost from the counts.
-/

namespace Chesscoin.Accounting

open Chesscoin.Lib.Linked Chesscoin.Domain Chesscoin.Simulator Chesscoin.Validation
  Chesscoin.ForkChoice Chesscoin.ForkTree Chesscoin.ForkInvariant Chesscoin.Wire
  Chesscoin.Storage Chesscoin.Config Chesscoin.Runtime Chesscoin.Runs Chesscoin.ActiveView
  Chesscoin.LocalMining Chesscoin.Overlap Chesscoin.Serving Chesscoin.Operations
  Chesscoin.Mining Chesscoin.Adapters Chesscoin.Lib.ByteString Chesscoin.Lib.Text

variable {hasher : HashPort} {sampler : SamplingPort} {addr : AddrText} {B : Block → Prop}
  {st₀ st st' st'' : NodeState} {event : Event} {events : List Event} {block : Block}

/-! ### Insertions -/

/-- The keys of the fork choice after an insertion that succeeds. -/
lemma keys_insertBlock {fc fc' : ForkChoiceState} {hash : Digest}
    (h : fc.insertBlock hasher sampler block = (.ok hash, fc')) :
    fc'.nodes.keys = insert (blockHash hasher block) fc.nodes.keys := by
  ext k
  have hnone := look_insertBlock_none h k
  rw [Finset.mem_insert, Finmap.mem_keys, Finmap.mem_keys, ← Finmap.lookup_isSome,
    ← Finmap.lookup_isSome, ← Option.ne_none_iff_isSome, ← Option.ne_none_iff_isSome]
  change fc'.look k ≠ none ↔ k = blockHash hasher block ∨ fc.look k ≠ none
  rw [ne_eq, hnone, not_and_or, not_not, or_comm, eq_comm (a := k)]

/-- A new block is one block more. -/
lemma knownBlockCount_new {fc fc' : ForkChoiceState} {hash : Digest}
    (hnew : fc.look (blockHash hasher block) = none)
    (h : fc.insertBlock hasher sampler block = (.ok hash, fc')) :
    fc'.knownBlockCount = fc.knownBlockCount + 1 := by
  have hnotin : blockHash hasher block ∉ fc.nodes.keys := by
    rw [Finmap.mem_keys, ← Finmap.lookup_isSome]
    change ¬(fc.look (blockHash hasher block)).isSome
    simp [hnew]
  rw [ForkChoiceState.knownBlockCount, keys_insertBlock h, Finset.card_insert_of_notMem hnotin]
  rfl

/-! ### Counted blocks -/

/-- The blocks that are counted as taken in. -/
def takenIn (st : NodeState) : ℕ := st.minedBlocks + st.acceptedBlocks + st.syncedBlocks

/-- As many blocks have become known as have been counted. -/
def Balanced (st st' : NodeState) : Prop :=
  st'.forkChoice.knownBlockCount + takenIn st = st.forkChoice.knownBlockCount + takenIn st'

lemma Balanced.trans (h : Balanced st st') (h' : Balanced st' st'') : Balanced st st'' := by
  unfold Balanced at *
  omega

lemma SameCounts.takenIn (h : SameCounts st st') : takenIn st' = takenIn st := by
  rw [Accounting.takenIn, h.mined, h.accepted, h.synced, Accounting.takenIn]

lemma takenIn_countAccepted (source : BlockSource) (st : NodeState) :
    takenIn (countAccepted source st) = takenIn st + 1 := by
  cases source <;> simp only [takenIn, countAccepted] <;> omega

lemma countAccepted_counts (source : BlockSource) (h : SameCounts st st') :
    SameCounts (countAccepted source st) (countAccepted source st') := by
  cases source with
  | gossip => exact ⟨h.mined, congrArg (· + 1) h.accepted, h.synced, h.rejected, h.peers⟩
  | sync => exact ⟨h.mined, h.accepted, congrArg (· + 1) h.synced, h.rejected, h.peers⟩

/-- **What an incoming block does to the counts**: an acceptance counts one block that was not
known, a block that is known changes nothing, and a rejection is counted for gossip. -/
theorem applyIncomingBlock_counts (hasher : HashPort) (sampler : SamplingPort) (block : Block)
    (source : BlockSource) (st : NodeState) :
    (∃ st', applyIncomingBlock hasher sampler block source st = (.accepted, st') ∧
        st'.forkChoice.knownBlockCount = st.forkChoice.knownBlockCount + 1 ∧
        SameCounts (countAccepted source st) st') ∨
      applyIncomingBlock hasher sampler block source st = (.alreadyKnown, st) ∨
      applyIncomingBlock hasher sampler block source st =
        (.rejected, countRejected source st) := by
  rcases applyIncomingBlock_cases hasher sampler block source st with
    ⟨-, hr⟩ | ⟨e, -, hr⟩ | ⟨st', hnew, hins, -, -, hr⟩
  · exact .inr (.inl hr)
  · exact .inr (.inr hr)
  · have hresult := applyIncomingBlock_new source hnew hins
    refine .inl ⟨st', hr, knownBlockCount_new hnew hins, ?_⟩
    have hst : st' = _ := congrArg Prod.snd (hr.symm.trans hresult)
    rw [hst]
    refine countAccepted_counts source ?_
    have hinserted : SameCounts st { st with forkChoice := st'.forkChoice } :=
      ⟨rfl, rfl, rfl, rfl, List.prefix_rfl⟩
    exact ((hinserted.trans (persistBlock_counts hasher block _)).trans
      (activateBestChain_counts hasher sampler _)).trans (countReorg_counts _ _ _ _ _)

lemma applyIncomingBlock_balanced (hasher : HashPort) (sampler : SamplingPort) (block : Block)
    (source : BlockSource) (st : NodeState) :
    Balanced st (applyIncomingBlock hasher sampler block source st).2 := by
  rcases applyIncomingBlock_counts hasher sampler block source st with
    ⟨st', hr, hcount, hsame⟩ | hr | hr <;> rw [hr]
  · have htaken := (SameCounts.takenIn hsame).trans (takenIn_countAccepted source st)
    simp only [Balanced, hcount, htaken]
    omega
  · rfl
  · cases source <;> rfl

/-- What was mined is counted with the mined blocks. -/
lemma mineOnce_counts {trainingSeed samplingEntropy : UInt64}
    (h : mineOnce hasher sampler trainingSeed samplingEntropy st = some (.ok (st', block))) :
    st.forkChoice.mineNextBlock hasher trainingSeed samplingEntropy = some block ∧
      st.forkChoice.insertBlock hasher sampler block =
        (.ok (blockHash hasher block), st'.forkChoice) ∧
      SameCounts { st with minedBlocks := st.minedBlocks + 1 } st' := by
  unfold mineOnce at h
  split at h
  · cases h
  · next b hmine =>
    split at h
    · cases h
    · next hash fc hins =>
      split at h
      · cases h
      · next changed st₁ hact =>
        have hactivated := activateBestChain_counts hasher sampler { st with forkChoice := fc }
        have hfc : (activateBestChain hasher sampler { st with forkChoice := fc }).2.forkChoice =
            fc := activateBestChain_forkChoice _
        rw [hact] at hactivated hfc
        simp only [Option.some.injEq, Except.ok.injEq, Prod.mk.injEq] at h
        obtain ⟨rfl, rfl⟩ := h
        have hsame := hactivated.trans (persistBlock_counts hasher b st₁)
        refine ⟨hmine, ?_, congrArg (· + 1) hsame.mined, hsame.accepted, hsame.synced,
          hsame.rejected, hsame.peers⟩
        have hkept : (persistBlock hasher b st₁).forkChoice = fc := by
          rw [persistBlock_forkChoice, hfc]
        exact (insertBlock_ok hins).trans (by rw [← hkept])

/-! ### Operations -/

def gossiped (application : BlockApplication) : Event → Bool
  | .gossip _ r => r = application
  | _ => false

def isGossip : Event → Bool
  | .gossip _ _ => true
  | _ => false

/-- An operation keeps the books: blocks are known as they are counted, and what came by gossip
is counted as the event says. -/
structure Kept (st : NodeState) (event : Event) (st' : NodeState) : Prop where
  balanced : Balanced st st'
  accepted : st'.acceptedBlocks = st.acceptedBlocks + [event].countP (gossiped .accepted)
  rejected : st'.rejectedBlocks =
    st.rejectedBlocks + [event].countP (gossiped .rejected) + [event].count .unreadable
  peers : st.peers <+: st'.peers

lemma applyIncomingBlock_kept (hasher : HashPort) (sampler : SamplingPort) (block : Block)
    (st : NodeState) :
    Kept st (.gossip block (applyIncomingBlock hasher sampler block .gossip st).1)
      (applyIncomingBlock hasher sampler block .gossip st).2 := by
  have hbalanced := applyIncomingBlock_balanced hasher sampler block .gossip st
  rcases applyIncomingBlock_counts hasher sampler block .gossip st with
    ⟨st', hr, -, hsame⟩ | hr | hr <;> rw [hr] at hbalanced ⊢
  · exact ⟨hbalanced, hsame.accepted, hsame.rejected, hsame.peers⟩
  · exact ⟨hbalanced, rfl, rfl, List.prefix_rfl⟩
  · exact ⟨hbalanced, rfl, rfl, List.prefix_rfl⟩

lemma Kept.answer_trans (h : Kept st .answer st') (h' : Kept st' .answer st'') :
    Kept st .answer st'' :=
  ⟨h.balanced.trans h'.balanced, h'.accepted.trans h.accepted, h'.rejected.trans h.rejected,
    h.peers.trans h'.peers⟩

/-- The blocks of an answer are counted with the synced ones, also when the batch ends early. -/
lemma applyBatch_kept (blocks : List Block) (st : NodeState) :
    Kept st .answer (applyBatch hasher sampler blocks st).2 := by
  induction blocks generalizing st with
  | nil => exact ⟨rfl, rfl, rfl, List.prefix_rfl⟩
  | cons block blocks ih =>
    have hone : Kept st .answer (applyIncomingBlock hasher sampler block .sync st).2 := by
      have hbalanced := applyIncomingBlock_balanced hasher sampler block .sync st
      rcases applyIncomingBlock_counts hasher sampler block .sync st with
        ⟨st', hr, -, hsame⟩ | hr | hr <;> rw [hr] at hbalanced ⊢
      · exact ⟨hbalanced, hsame.accepted, hsame.rejected, hsame.peers⟩
      · exact ⟨hbalanced, rfl, rfl, List.prefix_rfl⟩
      · exact ⟨hbalanced, rfl, rfl, List.prefix_rfl⟩
    rw [applyBatch]
    split
    · next st' hr => rwa [hr] at hone
    · next r st' _ hr =>
      rw [hr] at hone
      exact hone.answer_trans (ih st')

lemma settleAnswer_kept (answer : Answer) (st : NodeState) :
    Kept st .answer (settleAnswer hasher sampler answer st).2 := by
  cases answer with
  | oversized => exact ⟨rfl, rfl, rfl, List.prefix_rfl⟩
  | refused => exact ⟨rfl, rfl, rfl, List.prefix_rfl⟩
  | complete blocks =>
    simp only [settleAnswer]
    split
    · exact ⟨rfl, rfl, rfl, List.prefix_rfl⟩
    · exact applyBatch_kept blocks st

/-- **Every operation keeps the books.** What is mined is new because the best tip has no
child. -/
theorem NodeStep.kept (hown : OwnHashes hasher B) (hactive : Active hasher sampler B st)
    (hfit : ScoresFit st.forkChoice) (h : NodeStep hasher sampler addr B st event st') :
    Kept st event st' := by
  rcases h.cases with ⟨block, trainingSeed, samplingEntropy, rfl, hB, hmine⟩ |
    ⟨block, rfl, -, rfl⟩ | ⟨answer, rfl, -, rfl⟩ | ⟨haside, hevent⟩
  · obtain ⟨hmined, hins, hsame⟩ := mineOnce_counts hmine
    have hnew := mined_new hactive.tree hfit hactive.known hown.nonzero hown.distinct hB hmined
    refine ⟨?_, hsame.accepted, hsame.rejected, hsame.peers⟩
    have hcount := knownBlockCount_new hnew hins
    have htaken : takenIn st' = takenIn st + 1 := by
      rw [SameCounts.takenIn hsame]
      simp only [takenIn]
      omega
    simp only [Balanced, hcount, htaken]
    omega
  · exact applyIncomingBlock_kept hasher sampler block st
  · exact settleAnswer_kept answer st
  · have hbalanced : Balanced st st' := by
      simp only [Balanced, takenIn, haside.forkChoice, haside.mined, haside.accepted,
        haside.synced]
    rcases hevent with ⟨rfl, hrejected⟩ | ⟨rfl, hrejected⟩
    · exact ⟨hbalanced, haside.accepted, hrejected, haside.peers⟩
    · exact ⟨hbalanced, haside.accepted, hrejected, haside.peers⟩

/-! ### Runs -/

lemma countP_isGossip (events : List Event) :
    events.countP isGossip = events.countP (gossiped .accepted) +
      events.countP (gossiped .alreadyKnown) + events.countP (gossiped .rejected) := by
  induction events with
  | nil => rfl
  | cons event events ih =>
    rw [List.countP_cons, List.countP_cons, List.countP_cons, List.countP_cons, ih]
    cases event with
    | gossip block r => cases r <;> simp [isGossip, gossiped] <;> omega
    | _ => simp [isGossip, gossiped]

/-- A started node has counted nothing. -/
lemma startNode_counts {nodeConfig : NodeConfig} {boundAddr : SocketAddr} {storage : Option Disk}
    (h : startNode hasher sampler addr nodeConfig boundAddr storage = .ok st) :
    takenIn st = 0 ∧ st.acceptedBlocks = 0 ∧ st.rejectedBlocks = 0 := by
  unfold startNode at h
  split at h
  · cases h
  · simp only at h
    split at h
    · cases h
    · split at h
      · cases h
      · cases h
        exact ⟨rfl, rfl, rfl⟩

lemma NodeRun.kept (hown : OwnHashes hasher B) (hstart : Started hasher sampler addr B st₀)
    (hrun : NodeRun hasher sampler addr B st₀ events st) (hfit : ScoresFit st.forkChoice) :
    Balanced st₀ st ∧
      st.acceptedBlocks = st₀.acceptedBlocks + events.countP (gossiped .accepted) ∧
      st.rejectedBlocks = st₀.rejectedBlocks + events.countP (gossiped .rejected) +
        events.count .unreadable := by
  induction hrun with
  | start => exact ⟨rfl, rfl, rfl⟩
  | @step events event st st' hbefore hstep ih =>
    obtain ⟨hext, hconfig⟩ := run_grows (.single hstep.step)
    have hfit₀ := scoresFit_mono hext hconfig hfit
    obtain ⟨hbalanced, haccepted, hrejected⟩ := ih hfit₀
    have hactive := Reachable.active (hbefore.reachable hstart) hown.nonzero
    have hkept := NodeStep.kept hown hactive hfit₀ hstep
    refine ⟨hbalanced.trans hkept.balanced, ?_, ?_⟩
    · rw [hkept.accepted, haccepted, List.countP_append, Nat.add_assoc]
    · rw [hkept.rejected, hrejected, List.countP_append, List.count_append]
      omega

/-- **Accounts are conserved.** Over any run from a start, the blocks known are those known at
the start and those counted as mined, accepted or synced since; and of the blocks that came by
gossip each is counted once: it was accepted, or known, or else rejected along with the lines
that could not be read. -/
theorem accounts_conserved (hasher : HashPort) (sampler : SamplingPort) (addr : AddrText)
    (B : Block → Prop) (hown : OwnHashes hasher B) (st₀ st : NodeState) (events : List Event)
    (hstart : Started hasher sampler addr B st₀)
    (hrun : NodeRun hasher sampler addr B st₀ events st) (hfit : ScoresFit st.forkChoice) :
    st.forkChoice.knownBlockCount = st₀.forkChoice.knownBlockCount + st.minedBlocks +
        st.acceptedBlocks + st.syncedBlocks ∧
      st.acceptedBlocks = events.countP (gossiped .accepted) ∧
      st.rejectedBlocks = events.countP (gossiped .rejected) + events.count .unreadable ∧
      events.countP isGossip = events.countP (gossiped .accepted) +
        events.countP (gossiped .alreadyKnown) + events.countP (gossiped .rejected) := by
  obtain ⟨⟨nodeConfig, boundAddr, storage, hok⟩, -⟩ := id hstart
  obtain ⟨htaken, haccepted₀, hrejected₀⟩ := startNode_counts hok
  obtain ⟨hbalanced, haccepted, hrejected⟩ := NodeRun.kept hown hstart hrun hfit
  refine ⟨?_, ?_, ?_, countP_isGossip events⟩
  · rw [Balanced, htaken] at hbalanced
    simp only [takenIn] at hbalanced
    omega
  · rw [haccepted, haccepted₀, Nat.zero_add]
  · rw [hrejected, hrejected₀, Nat.zero_add]

/-- A node that was sent a line it could not read, and then a batch of one block. -/
def busyNode : NodeState :=
  (settleAnswer toyHash deterministicSampler
    (.complete [candidate toyHash ⟨1, 1, 0⟩ ParentContext.genesis 1 0 0])
    (countUndecodable ['x', '\n'] (freshNode ⟨1, 1, 0⟩ none))).2

lemma busyNode_run :
    NodeRun toyHash deterministicSampler ⟨fun _ => [], fun _ => none⟩
      (· = candidate toyHash ⟨1, 1, 0⟩ ParentContext.genesis 1 0 0) (freshNode ⟨1, 1, 0⟩ none)
      [.unreadable, .answer] busyNode := by
  refine .step (.step .start (.stream ⟨utf8 ['x', '\n'], false⟩ true ?_)) (.answer _ ?_)
  · intro block r h
    cases h
  · intro b hb
    simpa [answered] using hb

theorem accounts_conserved_busy :
    busyNode.forkChoice.knownBlockCount =
        0 + busyNode.minedBlocks + busyNode.acceptedBlocks + busyNode.syncedBlocks ∧
      busyNode.acceptedBlocks = 0 ∧ busyNode.rejectedBlocks = 1 := by
  have hown : OwnHashes toyHash (· = candidate toyHash ⟨1, 1, 0⟩ ParentContext.genesis 1 0 0) :=
    ⟨fun b hb => by subst hb; decide +kernel, fun b b' hb hb' _ => by rw [hb, hb']⟩
  have hreach := busyNode_run.reachable freshNode_started
  have hfit : ScoresFit busyNode.forkChoice :=
    scoresFit_of_count (Reachable.active hreach hown.nonzero).tree (by decide +kernel)
  obtain ⟨hknown, haccepted, hrejected, -⟩ := accounts_conserved toyHash deterministicSampler _ _
    hown _ busyNode _ freshNode_started busyNode_run hfit
  have hzero : (freshNode ⟨1, 1, 0⟩ none).forkChoice.knownBlockCount = 0 := rfl
  rw [hzero] at hknown
  refine ⟨hknown, ?_, ?_⟩
  · rw [haccepted]
    rfl
  · rw [hrejected]
    rfl

end Chesscoin.Accounting

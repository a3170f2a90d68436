import Chesscoin.Heads
import Chesscoin.HashBinding

/-!
A block hash binds the history of the block.

The header of a block holds the hash of the block before it. So what the hash of one block binds,
goes on to all the blocks below: two nodes that know a block by one hash know the same blocks up to
it, to the last entry of every trace, or two of the strings that were hashed for these blocks
collide.
-/

namespace Chesscoin.ChainBinding

open Chesscoin.Lib.ByteString Chesscoin.Lib.Linked Chesscoin.Domain Chesscoin.Simulator
  Chesscoin.Validation Chesscoin.Mining Chesscoin.ForkChoice Chesscoin.ForkTree
  Chesscoin.ForkInvariant Chesscoin.HashBinding Chesscoin.Wire Chesscoin.Runtime Chesscoin.Runs
  Chesscoin.ActiveView Chesscoin.Screening Chesscoin.Catchup Chesscoin.Rounds Chesscoin.Heads
  Chesscoin.Adapters

variable {hasher : HashPort} {sampler : SamplingPort} {addr : AddrText} {B : Block → Prop}
  {config : ChainConfig} {strings : List Bytes} {fc fc' : ForkChoiceState} {st st' : NodeState}

/-- The strings that are hashed for blocks. -/
def hashedFor (blocks : List Block) : List Bytes := blocks.flatMap hashedStrings

lemma hashedFor_subset_append (as bs : List Block) :
    hashedFor as ⊆ hashedFor (as ++ bs) ∧ hashedFor bs ⊆ hashedFor (as ++ bs) := by
  simp only [hashedFor, List.flatMap_append]
  exact ⟨List.subset_append_left _ _, List.subset_append_right _ _⟩

/-! ### One block -/

/-- The commitments of a block are among the strings. -/
lemma commit_mem {b : Block} (hsub : hashedStrings b ⊆ strings) :
    ∀ e ∈ b.trace.entries, commitPreimage e.previousCommitment e.step ∈ strings :=
  fun e he => hsub (List.mem_cons_of_mem _ (List.mem_map.mpr ⟨e, he, rfl⟩))

/-- Traces of one length that end in one root have the same entries. -/
lemma entries_eq (hfree : ¬ Collision hasher strings) {a b : Block}
    (hlen : a.trace.entries.length = b.trace.entries.length) (hroot : a.trace.root = b.trace.root)
    (ha : Committed hasher a.trace.root Digest.zero a.trace.entries)
    (hb : Committed hasher b.trace.root Digest.zero b.trace.entries)
    (hsub : hashedStrings a ⊆ strings) (hsub' : hashedStrings b ⊆ strings) :
    a.trace.entries = b.trace.entries := by
  rw [← hroot] at hb
  exact (committed_inj hfree hlen ha hb (commit_mem hsub) (commit_mem hsub')).2

/-- **Without a collision**, valid blocks of one hash are one block. -/
theorem valid_eq (hfree : ¬ Collision hasher strings) {p q : ParentContext} {a b : Block}
    (ha : Valid hasher sampler config p a) (hb : Valid hasher sampler config q b)
    (hsub : hashedStrings a ⊆ strings) (hsub' : hashedStrings b ⊆ strings)
    (hhash : blockHash hasher a = blockHash hasher b) : a = b := by
  have hheader : a.header = b.header :=
    headerPreimage_inj (eq_of_not_collision hfree (hsub List.mem_cons_self)
      (hsub' List.mem_cons_self) hhash)
  have hroot : a.trace.root = b.trace.root := by
    rw [ha.traceRoot, hb.traceRoot, hheader]
  have hentries := entries_eq hfree (ha.traceLength.trans hb.traceLength.symm) hroot ha.committed
    hb.committed hsub hsub'
  have hinitial : a.trace.initialModel = b.trace.initialModel := by
    rw [ha.initialModel, hb.initialModel, hheader]
  have hmodel : a.trace.candidateModel = b.trace.candidateModel := by
    rw [ha.modelAfter, hb.modelAfter, hheader]
  have htrace : a.trace = b.trace := by
    rcases hatrace : a.trace with ⟨initial, final, entries, root⟩
    rcases hbtrace : b.trace with ⟨initial', final', entries', root'⟩
    rw [hatrace, hbtrace] at hroot hentries hinitial hmodel
    simp only at hroot hentries hinitial hmodel
    rw [hroot, hentries, hinitial, hmodel]
  rcases a with ⟨header, trace⟩
  rcases b with ⟨header', trace'⟩
  simp only at hheader htrace
  rw [hheader, htrace]

/-! ### A branch -/

/-- **Without a collision**, branches to one hash are one list of blocks. -/
theorem branch_eq (hfree : ¬ Collision hasher strings) (h : Tree hasher sampler fc)
    (h' : Tree hasher sampler fc') (hconfig : fc.config = fc'.config) {k : Digest}
    {l l' : List ForkNode} (hl : Branch Digest.zero ForkNode.parent fc.look k l)
    (hl' : Branch Digest.zero ForkNode.parent fc'.look k l')
    (hsub : hashedFor (l.map (·.block)) ⊆ strings)
    (hsub' : hashedFor (l'.map (·.block)) ⊆ strings) :
    l.map (·.block) = l'.map (·.block) := by
  have hone : ∀ {k : Digest} {n m : ForkNode}, fc.look k = some n → fc'.look k = some m →
      hashedStrings n.block ⊆ strings → hashedStrings m.block ⊆ strings →
      n.block = m.block ∧ n.parent = m.parent := by
    intro k n m hn hm hsub hsub'
    have hs := h.stored k n hn
    have hs' := h'.stored k m hm
    obtain ⟨ctx, _, _, hv, _⟩ := hs.made
    obtain ⟨ctx', _, _, hv', _⟩ := hs'.made
    rw [hconfig] at hv
    have hblock := valid_eq hfree hv hv' hsub hsub' (hs.keyed.trans hs'.keyed.symm)
    exact ⟨hblock, by rw [hs.parent, hs'.parent, hblock]⟩
  induction hl generalizing l' with
  | @base k n hn hroot =>
    cases hl' with
    | @base _ m hm _ =>
      rw [List.map_singleton, List.map_singleton, (hone hn hm _ _).1]
      · simpa [hashedFor] using hsub
      · simpa [hashedFor] using hsub'
    | @snoc _ m l' hm hne hrest =>
      simp only [hashedFor, List.map_append, List.flatMap_append, List.append_subset] at hsub'
      obtain ⟨-, hparent⟩ := hone hn hm (by simpa [hashedFor] using hsub)
        (by simpa using hsub'.2)
      exact absurd (hparent.symm.trans hroot) hne
  | @snoc k n l hn hne hrest ih =>
    simp only [hashedFor, List.map_append, List.flatMap_append, List.append_subset] at hsub
    cases hl' with
    | @base _ m hm hroot =>
      obtain ⟨-, hparent⟩ := hone hn hm (by simpa using hsub.2)
        (by simpa [hashedFor] using hsub')
      exact absurd (hparent.trans hroot) hne
    | @snoc _ m l' hm hne' hrest' =>
      simp only [hashedFor, List.map_append, List.flatMap_append, List.append_subset] at hsub'
      obtain ⟨hblock, hparent⟩ := hone hn hm (by simpa using hsub.2) (by simpa using hsub'.2)
      rw [← hparent] at hrest'
      have hbelow := ih hrest' hsub.1 hsub'.1
      rw [List.map_append, List.map_append, hbelow, List.map_singleton, List.map_singleton, hblock]

/-! ### Nodes -/

/-- **A hash binds a history.** If two nodes of one configuration know a block by the same hash,
the blocks up to it are the same, traces and all, or there is a collision among the strings hashed
for them; and if their active chains have one head, the whole chains are the same, models and all,
or there is such a collision. -/
theorem hash_binds_history (hasher : HashPort) (sampler : SamplingPort) (addr : AddrText)
    (B : Block → Prop) (hnonzero : ∀ b, B b → blockHash hasher b ≠ Digest.zero)
    (st st' : NodeState) (hst : Reachable hasher sampler addr B st)
    (hst' : Reachable hasher sampler addr B st') (hconfig : st.chain.config = st'.chain.config) :
    (∀ k l l', Branch Digest.zero ForkNode.parent st.forkChoice.look k l →
      Branch Digest.zero ForkNode.parent st'.forkChoice.look k l' →
      l.map (·.block) = l'.map (·.block) ∨
        Collision hasher (hashedFor (l.map (·.block) ++ l'.map (·.block)))) ∧
    (st.chain.headHash hasher = st'.chain.headHash hasher → st.chain = st'.chain ∨
      Collision hasher (hashedFor (st.chain.blocks ++ st'.chain.blocks))) := by
  have hactive := Reachable.active hst hnonzero
  have hactive' := Reachable.active hst' hnonzero
  have hsame : st.forkChoice.config = st'.forkChoice.config := by
    rw [← Active.config hactive, ← Active.config hactive', hconfig]
  have hbranches : ∀ k l l', Branch Digest.zero ForkNode.parent st.forkChoice.look k l →
      Branch Digest.zero ForkNode.parent st'.forkChoice.look k l' →
      l.map (·.block) = l'.map (·.block) ∨
        Collision hasher (hashedFor (l.map (·.block) ++ l'.map (·.block))) := by
    intro k l l' hl hl'
    by_cases hfree : Collision hasher (hashedFor (l.map (·.block) ++ l'.map (·.block)))
    · exact .inr hfree
    · obtain ⟨hsub, hsub'⟩ := hashedFor_subset_append (l.map (·.block)) (l'.map (·.block))
      exact .inl (branch_eq hfree hactive.tree hactive'.tree hsame hl hl' hsub hsub')
  refine ⟨hbranches, fun hhead => ?_⟩
  rw [headHash_eq_bestHash hactive, headHash_eq_bestHash hactive'] at hhead
  have htips : st.forkChoice.bestTip = st'.forkChoice.bestTip := by
    rw [bestTip_of_bestHash hactive hnonzero, bestTip_of_bestHash hactive' hnonzero, hhead]
  have hchains : st.forkChoice.bestChain = st'.forkChoice.bestChain ∨
      Collision hasher (hashedFor (st.forkChoice.bestChain ++ st'.forkChoice.bestChain)) := by
    rcases hactive.tree.walkBestChain with ⟨hnone, -⟩ | ⟨tip, n, l, htip, -, hl, -⟩
    · exact .inl (by rw [Tree.bestChain_nil hnone, Tree.bestChain_nil (htips.symm.trans hnone)])
    · rcases hactive'.tree.walkBestChain with ⟨hnone, -⟩ | ⟨tip', n', l', htip', -, hl', -⟩
      · rw [htips, hnone] at htip
        cases htip
      · rw [htips, htip', Option.some.injEq] at htip
        subst htip
        rw [hactive.tree.bestChain_eq (htips.trans htip') hl, hactive'.tree.bestChain_eq htip' hl']
        exact hbranches _ l l' hl hl'
  rw [hactive.chain, hactive'.chain]
  rcases hchains with heq | hcollision
  · exact .inl (by rw [view, view, hsame, heq])
  · exact .inr hcollision

/-! Two chains under a hash that looks no further than the sample count of a header. They part in
the nonce of their first block and have the second one in common. -/

def shortSighted : HashPort := ⟨fun bytes => toyHash.digest (bytes.take 249)⟩

def firstBlock (nonce : UInt64) : Block :=
  candidate shortSighted rivalConfig ParentContext.genesis 1 0 nonce

def secondBlock : Block :=
  candidate shortSighted rivalConfig
    ⟨1, blockHash shortSighted (firstBlock 0), (firstBlock 0).header.modelAfter⟩ 2 0 0

def firstRun (nonce : UInt64) : BlockApplication × NodeState :=
  applyIncomingBlock shortSighted deterministicSampler (firstBlock nonce) .gossip rivalStart

def secondRun (nonce : UInt64) : BlockApplication × NodeState :=
  applyIncomingBlock shortSighted deterministicSampler secondBlock .gossip (firstRun nonce).2

def IsShort (b : Block) : Prop := b ∈ [firstBlock 0, firstBlock 1, secondBlock]

lemma isShort_nonzero : ∀ b, IsShort b → blockHash shortSighted b ≠ Digest.zero := by
  have h : ∀ b ∈ [firstBlock 0, firstBlock 1, secondBlock],
      blockHash shortSighted b ≠ Digest.zero := by decide +kernel
  exact h

lemma secondRun_reachable {nonce : UInt64} (h : IsShort (firstBlock nonce)) :
    Reachable shortSighted deterministicSampler noAddr IsShort (secondRun nonce).2 := by
  have hfirst : Reachable shortSighted deterministicSampler noAddr IsShort (firstRun nonce).2 :=
    ⟨rivalStart, freshNode_start rivalConfig, .single (.incoming (firstBlock nonce) .gossip h)⟩
  exact hfirst.run (.single (.incoming secondBlock .gossip (by simp [IsShort])))

lemma secondRun_chain : (secondRun 0).2.chain = ⟨rivalConfig, [firstBlock 0, secondBlock]⟩ ∧
    (secondRun 1).2.chain = ⟨rivalConfig, [firstBlock 1, secondBlock]⟩ ∧
    firstBlock 0 ≠ firstBlock 1 := by
  decide +kernel

/-- Two nodes with one head and different blocks below it give the hash away. -/
theorem hash_binds_history_short :
    Collision shortSighted
      (hashedFor ((secondRun 0).2.chain.blocks ++ (secondRun 1).2.chain.blocks)) := by
  obtain ⟨hfirst, hsecond, hne⟩ := secondRun_chain
  obtain ⟨-, hheads⟩ := hash_binds_history shortSighted deterministicSampler noAddr IsShort
    isShort_nonzero (secondRun 0).2 (secondRun 1).2 (secondRun_reachable (by simp [IsShort]))
    (secondRun_reachable (by simp [IsShort])) (by rw [hfirst, hsecond])
  have hhead : (secondRun 0).2.chain.headHash shortSighted =
      (secondRun 1).2.chain.headHash shortSighted := by
    rw [hfirst, hsecond]
    rfl
  refine (hheads hhead).resolve_left fun hsame => hne ?_
  rw [hfirst, hsecond] at hsame
  exact (List.cons.inj (ChainState.mk.inj hsame).2).1

end Chesscoin.ChainBinding

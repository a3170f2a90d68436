import Chesscoin.ForkInvariant
import Chesscoin.Runs

/-!
The active chain is the best chain of the fork choice.

The node keeps the two in step after each block it takes in: it compares the head of the
chain with the best tip, and replays the best chain when they differ. The comparison is a
shortcut that is right because a hash stands for its whole branch, and the replay never
fails because every node of the tree was validated in the context its parent gives.
-/

namespace Chesscoin.ActiveView

open Chesscoin.Lib.Linked Chesscoin.Domain Chesscoin.Simulator Chesscoin.Validation
  Chesscoin.Lib.Text Chesscoin.Mining Chesscoin.ForkChoice Chesscoin.ForkTree Chesscoin.Wire
  Chesscoin.Storage Chesscoin.Runtime Chesscoin.Runs Chesscoin.Adapters

variable {hasher : HashPort} {sampler : SamplingPort} {addr : AddrText}

/-! ### The linear view of a tree -/

def view (fc : ForkChoiceState) : ChainState := ⟨fc.config, fc.bestChain⟩

/-- The head of the view is the best tip, as a parent and as a hash. -/
lemma view_headContext {fc : ForkChoiceState} (h : Tree hasher sampler fc) :
    (view fc).headContext hasher = fc.bestContext := by
  rcases h.walkBestChain with ⟨htip, -⟩ | ⟨tip, n, l, htip, hlook, hb, -⟩
  · rw [view, Tree.bestChain_nil htip]
    simp only [ForkChoiceState.bestContext, ForkChoiceState.bestHeight, ForkChoiceState.bestHash,
      ForkChoiceState.bestModel, htip]
    rfl
  · obtain ⟨n', hn', -, hhead⟩ := h.replay_branch hb
    rw [hlook] at hn'
    cases hn'
    rw [view, h.bestChain_eq htip hb, hhead, (h.stored tip n hlook).hash]
    simp only [ForkChoiceState.bestContext, ForkChoiceState.bestHeight, ForkChoiceState.bestHash,
      ForkChoiceState.bestModel, htip, Option.bind_some, hlook]
    rfl

lemma view_headHash {fc : ForkChoiceState} (h : Tree hasher sampler fc) :
    (view fc).headHash hasher = fc.bestHash :=
  congrArg ParentContext.hash (view_headContext h)

/-- **The best chain can always be replayed.** -/
theorem chainFromBlocks_bestChain {fc : ForkChoiceState} (h : Tree hasher sampler fc) :
    chainFromBlocks hasher sampler fc.config fc.bestChain = .ok (view fc) := by
  rcases h.walkBestChain with ⟨htip, -⟩ | ⟨tip, n, l, htip, -, hb, -⟩
  · rw [view, Tree.bestChain_nil htip]
    rfl
  · obtain ⟨_, -, hreplay, -⟩ := h.replay_branch hb
    rw [view, h.bestChain_eq htip hb, hreplay]

/-- Trees of which one extends the other have one view when they have one best hash. -/
lemma view_eq_of_bestHash {fc fc' : ForkChoiceState} (h : Tree hasher sampler fc)
    (h' : Tree hasher sampler fc') (hext : Extends fc.look fc'.look)
    (hconfig : fc'.config = fc.config)
    (hnonzero : ∀ k n, fc'.look k = some n → k ≠ Digest.zero)
    (hhash : fc.bestHash = fc'.bestHash) : view fc = view fc' := by
  have hchain : fc.bestChain = fc'.bestChain := by
    rcases h.walkBestChain with ⟨htip, -⟩ | ⟨tip, n, l, htip, hlook, hb, -⟩
    · rcases h'.walkBestChain with ⟨htip', -⟩ | ⟨tip', n', l', htip', hlook', -, -⟩
      · rw [Tree.bestChain_nil htip, Tree.bestChain_nil htip']
      · simp only [ForkChoiceState.bestHash, htip, htip', Option.getD_none,
          Option.getD_some] at hhash
        exact absurd hhash.symm (hnonzero tip' n' hlook')
    · rcases h'.walkBestChain with ⟨htip', -⟩ | ⟨tip', n', l', htip', hlook', hb', -⟩
      · have hnone := h'.best
        rw [htip'] at hnone
        have hsome := hext tip n hlook
        rw [hnone tip] at hsome
        cases hsome
      · simp only [ForkChoiceState.bestHash, htip, htip', Option.getD_some] at hhash
        subst hhash
        rw [h.bestChain_eq htip hb, h'.bestChain_eq htip' hb', (hb.mono hext).unique hb']
  rw [view, view, hchain, hconfig]

/-- **Activation** brings the chain from the view of one tree to that of a larger one. -/
theorem activateBestChain_view {st : NodeState} {fc : ForkChoiceState}
    (h : Tree hasher sampler fc) (h' : Tree hasher sampler st.forkChoice)
    (hext : Extends fc.look st.forkChoice.look) (hconfig : st.forkChoice.config = fc.config)
    (hnonzero : ∀ k n, st.forkChoice.look k = some n → k ≠ Digest.zero)
    (hchain : st.chain = view fc) :
    ∃ changed, activateBestChain hasher sampler st =
      (.ok changed, { st with chain := view st.forkChoice }) := by
  unfold activateBestChain
  split
  · next heq =>
    rw [hchain, view_headHash h] at heq
    have hview := view_eq_of_bestHash h h' hext hconfig hnonzero heq
    refine ⟨false, ?_⟩
    rw [← hview, ← hchain]
  · exact ⟨true, by rw [chainFromBlocks_bestChain h']⟩

/-! ### Loading -/

/-- What loading has built is a tree, under the configuration it was given. -/
def LoadedTree (hasher : HashPort) (sampler : SamplingPort) (config : ChainConfig) (s : Loaded) :
    Prop :=
  Tree hasher sampler s.forkChoice ∧ s.forkChoice.config = config

lemma loadHeader_forkChoice {config : ChainConfig} {lineNumber : ℕ} {fingerprint : Str}
    {s s' : Loaded} (h : loadHeader config lineNumber fingerprint s = .ok s') :
    s'.forkChoice = s.forkChoice := by
  unfold loadHeader at h
  split at h
  · cases h
  · split at h
    · cases h
    · split at h
      · cases h
      · cases h
        rfl

lemma loadBlock_ok {lineNumber : ℕ} {block : Block} {s s' : Loaded}
    (h : loadBlock hasher sampler lineNumber block s = .ok s') :
    ∃ hash, s.forkChoice.insertBlock hasher sampler block = (.ok hash, s'.forkChoice) := by
  unfold loadBlock at h
  split at h
  · cases h
  · next hash fc hins =>
    cases h
    exact ⟨hash, hins⟩

lemma loadLine_tree {config : ChainConfig} {lineNumber : ℕ} {line : StorageLine} {s s' : Loaded}
    (h : LoadedTree hasher sampler config s)
    (hload : loadLine hasher sampler config lineNumber line s = .ok s') :
    LoadedTree hasher sampler config s' := by
  cases line with
  | header fingerprint =>
    rw [LoadedTree, loadHeader_forkChoice hload]
    exact h
  | block block =>
    obtain ⟨hash, hins⟩ := loadBlock_ok hload
    exact ⟨h.1.of_insertBlock hins, (config_of_insertBlock hins).trans h.2⟩

lemma loadLines_tree {config : ChainConfig} {complete : Bool} {ls : List Str} {lineNumber : ℕ}
    {s s' : Loaded} (h : LoadedTree hasher sampler config s)
    (hload : loadLines hasher sampler addr config complete lineNumber ls s = .ok s') :
    LoadedTree hasher sampler config s' := by
  induction ls generalizing lineNumber s with
  | nil =>
    cases hload
    exact h
  | cons line ls ih =>
    rw [loadLines] at hload
    split at hload
    · exact ih h hload
    · split at hload
      · split at hload
        · cases hload
        · next s'' hline => exact ih (loadLine_tree h hline) hload
      · split at hload
        · cases hload
          exact h
        · cases hload

/-- A log that loads gives a tree and its view. -/
lemma loadChains_tree {config : ChainConfig} {file : Option Lib.ByteString.Bytes}
    {chain : ChainState} {fc : ForkChoiceState}
    (h : loadChains hasher sampler addr file config = .ok (chain, fc)) :
    Tree hasher sampler fc ∧ fc.config = config ∧ chain = view fc := by
  unfold loadChains at h
  split at h
  · cases h
    exact ⟨Tree.new hasher sampler config, rfl, rfl⟩
  · split at h
    · cases h
    · split at h
      · cases h
      · next s hload =>
        have hinit : LoadedTree hasher sampler config (Loaded.init config) :=
          ⟨Tree.new hasher sampler config, rfl⟩
        obtain ⟨htree, hconfig⟩ := loadLines_tree hinit hload
        rw [← hconfig, chainFromBlocks_bestChain htree] at h
        cases h
        exact ⟨htree, hconfig, rfl⟩

/-! ### Runs -/

variable {B : Block → Prop}

/-- The fork choice is a tree of blocks of the run and the chain is its view. -/
structure Active (hasher : HashPort) (sampler : SamplingPort) (B : Block → Prop)
    (st : NodeState) : Prop where
  tree : Tree hasher sampler st.forkChoice
  known : ∀ k n, st.forkChoice.look k = some n → B n.block
  chain : st.chain = view st.forkChoice

lemma known_nonzero {fc : ForkChoiceState} (h : Tree hasher sampler fc)
    (hknown : ∀ k n, fc.look k = some n → B n.block)
    (hnonzero : ∀ b, B b → blockHash hasher b ≠ Digest.zero) {k : Digest} {n : ForkNode}
    (hk : fc.look k = some n) : k ≠ Digest.zero := by
  rw [← (h.stored k n hk).keyed]
  exact hnonzero _ (hknown k n hk)

/-- Taking a block in can always be followed by an activation, which brings the chain to the
view of the fork choice. -/
lemma Active.activates {st : NodeState} (h : Active hasher sampler B st) (st' : NodeState)
    (hnonzero : ∀ b, B b → blockHash hasher b ≠ Digest.zero) {block : Block} (hB : B block)
    (hchain : st'.chain = st.chain)
    (hfc : st'.forkChoice = (st.forkChoice.insertBlock hasher sampler block).2) :
    ∃ changed, activateBestChain hasher sampler st' =
      (.ok changed, { st' with chain := view st'.forkChoice }) := by
  have htree := h.tree.insertBlock block
  have hknown : ∀ k n, st'.forkChoice.look k = some n → B n.block := by
    intro k n hk
    rw [hfc] at hk
    exact known_of_insertBlock rfl h.known hB k n hk
  rw [← hfc] at htree
  refine activateBestChain_view h.tree htree ?_ ?_
    (fun k n hk => known_nonzero htree hknown hnonzero hk) (hchain.trans h.chain)
  · rw [hfc]
    exact insertBlock_extends hasher sampler _ block
  · rw [hfc]
    exact insertBlock_config hasher sampler _ block

/-- **A move keeps the chain the view of the fork choice.** -/
theorem Active.move {st st' : NodeState} (h : Active hasher sampler B st)
    (hnonzero : ∀ b, B b → blockHash hasher b ≠ Digest.zero)
    (hmove : Move hasher sampler B st st') : Active hasher sampler B st' := by
  cases hmove with
  | idle hchain hfc _ =>
    refine ⟨by rw [hfc]; exact h.tree, by rw [hfc]; exact h.known, ?_⟩
    rw [hchain, hfc]
    exact h.chain
  | take block hB _ hins _ _ hchain =>
    have hfc : st'.forkChoice = (st.forkChoice.insertBlock hasher sampler block).2 := by
      rw [hins]
    have htree := h.tree.insertBlock block
    obtain ⟨changed, hact⟩ := h.activates { st with forkChoice := st'.forkChoice } hnonzero hB
      rfl hfc
    have hview := congrArg (fun r => r.2.chain) hact
    simp only [activateBestChain_chain] at hview
    refine ⟨by rw [hfc]; exact htree, ?_, hchain.trans hview⟩
    intro k n hk
    rw [hfc] at hk
    exact known_of_insertBlock rfl h.known hB k n hk

lemma Start.active {st : NodeState} (h : Start hasher sampler addr B st) :
    Active hasher sampler B st := by
  obtain ⟨config, hchains, hknown⟩ := h
  unfold initialChains at hchains
  split at hchains
  · have hpair := Prod.mk.inj (Except.ok.inj hchains)
    refine ⟨?_, hknown, ?_⟩
    · rw [← hpair.2]
      exact Tree.new hasher sampler config
    · rw [← hpair.1, ← hpair.2]
      rfl
  · obtain ⟨htree, -, hchain⟩ := loadChains_tree hchains
    exact ⟨htree, hknown, hchain⟩

lemma Active.run {st st' : NodeState} (h : Active hasher sampler B st)
    (hnonzero : ∀ b, B b → blockHash hasher b ≠ Digest.zero)
    (hrun : Relation.ReflTransGen (Step hasher sampler B) st st') :
    Active hasher sampler B st' :=
  run_keeps (fun _ _ ha hmove => ha.move hnonzero hmove) hrun h

lemma Reachable.active {st : NodeState} (h : Reachable hasher sampler addr B st)
    (hnonzero : ∀ b, B b → blockHash hasher b ≠ Digest.zero) : Active hasher sampler B st := by
  obtain ⟨start, hstart, hrun⟩ := h
  exact (Start.active hstart).run hnonzero hrun

/-- **The active chain is the best chain** in every state a node can come to, and activation
never fails, whatever block has just been inserted. -/
theorem active_view_eq_fork_choice {st : NodeState} (hasher : HashPort)
    (sampler : SamplingPort) (addr : AddrText) (B : Block → Prop)
    (hnonzero : ∀ b, B b → blockHash hasher b ≠ Digest.zero)
    (hreach : Reachable hasher sampler addr B st) :
    st.chain.blocks = st.forkChoice.bestChain ∧
      st.chain.height = st.forkChoice.bestHeight ∧
      st.chain.headHash hasher = st.forkChoice.bestHash ∧
      st.chain.currentModel = st.forkChoice.bestModel ∧
      ∀ block st', B block → st'.chain = st.chain →
        st'.forkChoice = (st.forkChoice.insertBlock hasher sampler block).2 →
        ∃ changed, (activateBestChain hasher sampler st').1 = .ok changed := by
  have h := Reachable.active hreach hnonzero
  have hhead : st.chain.headContext hasher = st.forkChoice.bestContext := by
    rw [h.chain]
    exact view_headContext h.tree
  refine ⟨by rw [h.chain]; rfl, congrArg ParentContext.height hhead,
    congrArg ParentContext.hash hhead, congrArg ParentContext.model hhead, ?_⟩
  intro block st' hB hchain hfc
  obtain ⟨changed, hact⟩ := h.activates st' hnonzero hB hchain hfc
  exact ⟨changed, congrArg Prod.fst hact⟩

theorem active_view_eq_fork_choice_one_block :
    (applyIncomingBlock toyHash deterministicSampler
        (candidate toyHash ⟨1, 1, 0⟩ ParentContext.genesis 1 0 0) .gossip
        (freshNode ⟨1, 1, 0⟩ none)).2.chain.blocks =
      (applyIncomingBlock toyHash deterministicSampler
        (candidate toyHash ⟨1, 1, 0⟩ ParentContext.genesis 1 0 0) .gossip
        (freshNode ⟨1, 1, 0⟩ none)).2.forkChoice.bestChain :=
  (active_view_eq_fork_choice toyHash deterministicSampler ⟨fun _ => [], fun _ => none⟩
    (· = candidate toyHash ⟨1, 1, 0⟩ ParentContext.genesis 1 0 0)
    (fun b hb => by subst hb; decide +kernel)
    ⟨_, freshNode_start _, .single (.incoming _ .gossip rfl)⟩).1

end Chesscoin.ActiveView

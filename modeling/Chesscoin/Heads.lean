import Chesscoin.Rounds

/-!
The head of a node only gets better.

The tip of a tree is worth its rank, and a tree that has grown is worth no less: the tip is the
best of all that is known, and nothing is forgotten. So along a run the active chain is only ever
left for a better one, and a chain that was left does not come back, whatever arrives later and
in whatever order.
-/

namespace Chesscoin.Heads

open Chesscoin.Lib.Linked Chesscoin.Domain Chesscoin.Simulator Chesscoin.Validation
  Chesscoin.ForkChoice Chesscoin.ForkTree Chesscoin.ForkInvariant Chesscoin.Runtime
  Chesscoin.Runs Chesscoin.ActiveView Chesscoin.WorkScores Chesscoin.Screening Chesscoin.Rounds
  Chesscoin.Wire Chesscoin.Adapters

variable {hasher : HashPort} {sampler : SamplingPort} {addr : AddrText} {B : Block → Prop}
  {fc fc' : ForkChoiceState} {st st' st'' : NodeState}

/-! ### What a tip is worth -/

/-- The rank of the best tip; a tree without blocks is worth less than any other. -/
def tipRank (fc : ForkChoiceState) : WithBot (ℕ ×ₗ ℕ ×ₗ ℕ) :=
  (fc.bestTip.bind fc.look).map rank

lemma rank_le_tipRank (h : Tree hasher sampler fc) {k : Digest} {n : ForkNode}
    (hk : fc.look k = some n) : (rank n : WithBot (ℕ ×ₗ ℕ ×ₗ ℕ)) ≤ tipRank fc := by
  have hbest := h.best
  cases htip : fc.bestTip with
  | none =>
    rw [htip] at hbest
    rw [hbest k] at hk
    cases hk
  | some tip =>
    rw [htip] at hbest
    obtain ⟨best, hlook, hmax⟩ := hbest
    rw [tipRank, htip, Option.bind_some, hlook]
    exact WithBot.coe_le_coe.mpr (hmax k n hk)

/-- A tip is worth something exactly when there is one. -/
lemma tipRank_some {r : ℕ ×ₗ ℕ ×ₗ ℕ} (h : tipRank fc = r) :
    ∃ tip n, fc.bestTip = some tip ∧ fc.look tip = some n ∧ rank n = r := by
  obtain ⟨n, hn, hrank⟩ := Option.map_eq_some_iff.mp h
  obtain ⟨tip, htip, hlook⟩ := Option.bind_eq_some_iff.mp hn
  exact ⟨tip, n, htip, hlook, hrank⟩

lemma tipRank_tip {tip : Digest} {n : ForkNode} (htip : fc.bestTip = some tip)
    (hk : fc.look tip = some n) : tipRank fc = rank n := by
  rw [tipRank, htip, Option.bind_some, hk]
  rfl

/-- **A tree that has grown is worth no less.** -/
theorem tipRank_mono (h' : Tree hasher sampler fc') (hext : Extends fc.look fc'.look) :
    tipRank fc ≤ tipRank fc' := by
  cases hrank : tipRank fc with
  | bot => exact bot_le
  | coe r =>
    obtain ⟨tip, n, -, hlook, rfl⟩ := tipRank_some hrank
    exact rank_le_tipRank h' (hext tip n hlook)

/-- Trees that are worth the same have the same tip. -/
lemma bestTip_eq_of_tipRank (h : Tree hasher sampler fc) (h' : Tree hasher sampler fc')
    (hrank : tipRank fc = tipRank fc') : fc.bestTip = fc'.bestTip := by
  cases htip : fc.bestTip with
  | none =>
    cases htip' : fc'.bestTip with
    | none => rfl
    | some tip' =>
      obtain ⟨n', hk', -⟩ := htip' ▸ h'.best
      rw [tipRank_tip htip' hk', tipRank, htip] at hrank
      cases hrank
  | some tip =>
    obtain ⟨n, hk, -⟩ := htip ▸ h.best
    rw [tipRank_tip htip hk] at hrank
    obtain ⟨tip', n', htip', hk', hsame⟩ := tipRank_some hrank.symm
    have hhash := hash_eq_of_rank_eq hsame
    rw [(h'.stored tip' n' hk').hash, (h.stored tip n hk).hash] at hhash
    rw [htip', hhash]

/-! ### Growth -/

/-- A later state of a node: it has forgotten no block. -/
structure Later (hasher : HashPort) (sampler : SamplingPort) (B : Block → Prop)
    (st st' : NodeState) : Prop where
  active : Active hasher sampler B st'
  extends_ : Extends st.forkChoice.look st'.forkChoice.look
  config : st'.forkChoice.config = st.forkChoice.config

lemma Later.trans (h : Later hasher sampler B st st') (h' : Later hasher sampler B st' st'') :
    Later hasher sampler B st st'' :=
  ⟨h'.active, h.extends_.trans h'.extends_, h'.config.trans h.config⟩

lemma later_of_run (h : Active hasher sampler B st)
    (hnonzero : ∀ b, B b → blockHash hasher b ≠ Digest.zero)
    (hrun : Relation.ReflTransGen (Step hasher sampler B) st st') :
    Later hasher sampler B st st' := by
  obtain ⟨hext, hconfig⟩ := run_grows hrun
  exact ⟨h.run hnonzero hrun, hext, hconfig⟩

/-- The tip of a later state is not a worse one. -/
lemma Later.tip (h : Later hasher sampler B st st') {old : ForkNode}
    (hold : st.forkChoice.bestTip.bind st.forkChoice.look = some old) :
    ∃ new, st'.forkChoice.bestTip.bind st'.forkChoice.look = some new ∧
      isBetterTip old new = false := by
  obtain ⟨tip, -, hlook⟩ := Option.bind_eq_some_iff.mp hold
  exact Catchup.tip_not_worse h.active.tree (h.extends_ tip old hlook)

/-- Where no hash is zero, the best hash says what the best tip is. -/
lemma bestTip_of_bestHash (h : Active hasher sampler B st)
    (hnonzero : ∀ b, B b → blockHash hasher b ≠ Digest.zero) :
    st.forkChoice.bestTip =
      if st.forkChoice.bestHash = Digest.zero then none else some st.forkChoice.bestHash := by
  have hbest := h.tree.best
  unfold ForkChoiceState.bestHash
  cases htip : st.forkChoice.bestTip with
  | none => simp
  | some tip =>
    rw [htip] at hbest
    obtain ⟨n, hk, -⟩ := hbest
    have hzero : tip ≠ Digest.zero := known_nonzero h.tree h.known hnonzero hk
    simp [hzero]

lemma headHash_eq_bestHash (h : Active hasher sampler B st) :
    st.chain.headHash hasher = st.forkChoice.bestHash := by
  rw [h.chain]
  exact view_headHash h.tree

/-- The tip of a tree is worth the same in a tree that has grown from it. -/
lemma Later.tipRank_eq (h : Later hasher sampler B st st') (hst : Active hasher sampler B st)
    (htip : st.forkChoice.bestTip = st'.forkChoice.bestTip) :
    tipRank st.forkChoice = tipRank st'.forkChoice := by
  have hbest := hst.tree.best
  cases hold : st.forkChoice.bestTip with
  | none =>
    rw [tipRank, tipRank, ← htip, hold]
    rfl
  | some tip =>
    rw [hold] at hbest htip
    obtain ⟨n, hk, -⟩ := hbest
    rw [tipRank_tip hold hk, tipRank_tip htip.symm (h.extends_ tip n hk)]

/-- **A head that has been left does not come back.** What lies between two states with one head
is worth neither less than the first nor more than the last. -/
theorem Later.between (hst : Active hasher sampler B st)
    (hnonzero : ∀ b, B b → blockHash hasher b ≠ Digest.zero)
    (h : Later hasher sampler B st st') (h' : Later hasher sampler B st' st'')
    (hsame : st''.chain.headHash hasher = st.chain.headHash hasher) : st'.chain = st.chain := by
  rw [headHash_eq_bestHash hst, headHash_eq_bestHash h'.active] at hsame
  have hends : st.forkChoice.bestTip = st''.forkChoice.bestTip := by
    rw [bestTip_of_bestHash hst hnonzero, bestTip_of_bestHash h'.active hnonzero, hsame]
  have hmiddle : tipRank st.forkChoice = tipRank st'.forkChoice := by
    refine le_antisymm (tipRank_mono h.active.tree h.extends_) ?_
    rw [(h.trans h').tipRank_eq hst hends]
    exact tipRank_mono h'.active.tree h'.extends_
  have htips := bestTip_eq_of_tipRank hst.tree h.active.tree hmiddle
  have hview := view_eq_of_bestHash hst.tree h.active.tree h.extends_ h.config
    (fun k n hk => known_nonzero h.active.tree h.active.known hnonzero hk)
    (by rw [ForkChoiceState.bestHash, ForkChoiceState.bestHash, htips])
  rw [h.active.chain, hst.chain, hview]

/-! ### Lengths -/

/-- Where scores fit, a chain that is worth no more is no longer. -/
lemma length_le_of_rankAt {config : ChainConfig} {m n : ℕ} {a b : Digest}
    (hm : m < room config) (h : rankAt config m a ≤ rankAt config n b) : m ≤ n := by
  by_contra hlt
  exact absurd h (not_le.mpr (rankAt_lt (not_le.mp hlt) hm b a))

/-- The active chain of a node whose scores fit is a short one. -/
lemma short_of_active (h : Active hasher sampler B st) (hfits : ScoresFit st.forkChoice) :
    st.chain.blocks.length < room st.forkChoice.config := by
  rw [h.chain]
  show st.forkChoice.bestChain.length < _
  rcases h.tree.walkBestChain with ⟨htip, -⟩ | ⟨tip, n, l, htip, -, hl, -⟩
  · rw [Tree.bestChain_nil htip]
    exact Nat.two_pow_pos _
  · rw [h.tree.bestChain_eq htip hl, List.length_map]
    exact short_of_scoresFit h.tree hfits tip l hl

/-- **The active chain grows no shorter** while scores fit. -/
theorem Later.length_le (h : Later hasher sampler B st st') (hst : Active hasher sampler B st)
    (hfits : ScoresFit st'.forkChoice) :
    st.chain.blocks.length ≤ st'.chain.blocks.length := by
  have hshort := short_of_active hst (scoresFit_mono h.extends_ h.config hfits)
  cases htip : st.forkChoice.bestTip.bind st.forkChoice.look with
  | none =>
    have hnil : st.chain.blocks = [] := by
      rcases hst.tree.walkBestChain with ⟨hnone, -⟩ | ⟨tip, n, l, hsome, hlook, -, -⟩
      · rw [hst.chain]
        exact Tree.bestChain_nil hnone
      · rw [hsome, Option.bind_some, hlook] at htip
        cases htip
    simp [hnil]
  | some old =>
    obtain ⟨new, hnew, hworse⟩ := h.tip htip
    obtain ⟨a, -, -, hrank⟩ := tip_on_chain hst htip
    obtain ⟨b, -, -, hrank'⟩ := tip_on_chain h.active hnew
    have hle := (isBetterTip_eq_false old new).mp hworse
    rw [hrank, hrank', h.config] at hle
    exact length_le_of_rankAt hshort hle

/-! ### Runs -/

/-- **The head of a node only gets better.** Between two states of a run the best tip does not
become a worse one, the active chain does not become shorter while scores fit, and a head that
has been left for another is never the head again. -/
theorem heads_only_improve (hasher : HashPort) (sampler : SamplingPort) (addr : AddrText)
    (B : Block → Prop) (hnonzero : ∀ b, B b → blockHash hasher b ≠ Digest.zero)
    (st st' st'' : NodeState) (hreach : Reachable hasher sampler addr B st)
    (hrun : Relation.ReflTransGen (Step hasher sampler B) st st')
    (hrun' : Relation.ReflTransGen (Step hasher sampler B) st' st'') :
    (∀ old, st.forkChoice.bestTip.bind st.forkChoice.look = some old →
      ∃ new, st'.forkChoice.bestTip.bind st'.forkChoice.look = some new ∧
        isBetterTip old new = false) ∧
    (ScoresFit st'.forkChoice → st.chain.blocks.length ≤ st'.chain.blocks.length) ∧
    (st'.chain ≠ st.chain → st''.chain.headHash hasher ≠ st.chain.headHash hasher) := by
  have hst := Reachable.active hreach hnonzero
  have h := later_of_run hst hnonzero hrun
  have h' := later_of_run h.active hnonzero hrun'
  exact ⟨fun _ hold => h.tip hold, h.length_le hst,
    fun hleft hsame => hleft (h.between hst hnonzero h' hsame)⟩

/-- A node with one of two rival blocks that is sent the better one. -/
def swayed : NodeState :=
  (applyIncomingBlock toyHash deterministicSampler (rival 2) .gossip (rivalRun 1).2).2

lemma swayed_facts : swayed.chain = ⟨rivalConfig, [rival 2]⟩ ∧
    swayed.forkChoice.knownBlockCount *
      configuredBlockWorkScore swayed.forkChoice.config.difficultyZeroBits < 2 ^ 128 := by
  decide +kernel

theorem heads_only_improve_swayed :
    (rivalRun 1).2.chain.blocks.length ≤ swayed.chain.blocks.length ∧
      swayed.chain.headHash toyHash ≠ (rivalRun 1).2.chain.headHash toyHash := by
  have hreach : Reachable toyHash deterministicSampler noAddr IsRival (rivalRun 1).2 :=
    rivalRun_reachable (.inl rfl)
  have hrun : Relation.ReflTransGen (Step toyHash deterministicSampler IsRival) (rivalRun 1).2
      swayed := .single (.incoming (rival 2) .gossip (.inr rfl))
  obtain ⟨-, hlength, hleft⟩ := heads_only_improve toyHash deterministicSampler noAddr IsRival
    isRival_nonzero (rivalRun 1).2 swayed swayed hreach hrun .refl
  have htree := ((Reachable.active hreach isRival_nonzero).run isRival_nonzero hrun).tree
  refine ⟨hlength (scoresFit_of_count htree swayed_facts.2), hleft ?_⟩
  rw [swayed_facts.1, rivalRun_chain.1]
  decide +kernel

end Chesscoin.Heads

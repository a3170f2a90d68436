import Mathlib.Data.Multiset.Basic
import Chesscoin.ActiveView

/-!
Nodes that know the same blocks agree.

A tree is fixed by its blocks: a node's height and score are computed from its block and its
parent's node, and the best tip is the one greatest node. So the order in which the blocks
came, and what else came with them, leaves no trace. The network may delay, reorder,
duplicate and drop what is sent, and outsiders may send what they like.
-/

namespace Chesscoin.Agreement

open Chesscoin.Lib.Linked Chesscoin.Domain Chesscoin.Simulator Chesscoin.Validation
  Chesscoin.Mining Chesscoin.ForkChoice Chesscoin.ForkTree Chesscoin.Wire Chesscoin.Runtime
  Chesscoin.Runs Chesscoin.ActiveView Chesscoin.Adapters
open ForkChoiceState

variable {hasher : HashPort} {sampler : SamplingPort} {addr : AddrText}

/-! ### A tree is fixed by its blocks -/

/-- The node of a block under its parent's node. -/
def buildNode (hasher : HashPort) (fc : ForkChoiceState) (_ : Digest) (block : Block)
    (parent : Option ForkNode) : ForkNode :=
  fc.forkNode hasher ((parent.map (·.workScore)).getD 0) block

lemma tree_built {fc : ForkChoiceState} (h : Tree hasher sampler fc) :
    Built Digest.zero ForkNode.parent ForkNode.block (buildNode hasher fc) fc.look := by
  intro k n hk
  have hs := h.stored k n hk
  obtain ⟨ctx, score, hctx, -, hn⟩ := hs.made
  rcases parentContext_ok hctx with ⟨hz, -, rfl⟩ | ⟨hz, p, hp, -, rfl⟩
  · rw [if_pos (hs.parent.trans hz)]
    exact hn
  · rw [if_neg (hs.parent ▸ hz), hs.parent, hp]
    exact hn

/-- The best tip is the only greatest node. -/
lemma bestTip_eq {fc fc' : ForkChoiceState} (h : Tree hasher sampler fc)
    (h' : Tree hasher sampler fc') (hlook : fc.look = fc'.look) : fc.bestTip = fc'.bestTip := by
  have hbest' := h'.best
  rw [← hlook] at hbest'
  refine h.best.unique hbest' fun k k' n n' hk hk' hrank => ?_
  rw [← (h.stored k n hk).hash, ← (h.stored k' n' hk').hash]
  exact hash_eq_of_rank_eq hrank

/-- **Trees with the same blocks are equal.** -/
theorem forkChoice_eq {fc fc' : ForkChoiceState} (h : Tree hasher sampler fc)
    (h' : Tree hasher sampler fc') (hconfig : fc.config = fc'.config)
    (hdom : ∀ k, fc.containsBlock k = fc'.containsBlock k)
    (hblock : ∀ k n m, fc.look k = some n → fc'.look k = some m → n.block = m.block) :
    fc = fc' := by
  have hbuild : buildNode hasher fc' = buildNode hasher fc := by
    funext k block parent
    exact forkNode_congr hconfig.symm _ _
  have hlook : fc.look = fc'.look := by
    have hbuilt' := tree_built h'
    rw [hbuild] at hbuilt'
    refine look_eq_of_content h.rooted (tree_built h) hbuilt' ?_ ?_ hblock
    · intro k n m hk hm hc
      rw [(h.stored k n hk).parent, (h'.stored k m hm).parent, hc]
    · intro k
      rw [← not_containsBlock_iff, ← not_containsBlock_iff, hdom]
  have htip := bestTip_eq h h' hlook
  have hnodes : fc.nodes = fc'.nodes := Finmap.ext_lookup fun k => congrFun hlook k
  cases fc
  cases fc'
  simp only at hconfig htip hnodes
  rw [hconfig, htip, hnodes]

/-! ### Binding hashes -/

/-- The block passes validation after some parent. -/
def ValidSomewhere (hasher : HashPort) (sampler : SamplingPort) (config : ChainConfig)
    (block : Block) : Prop :=
  ∃ parent, validateBlockAfter hasher sampler config parent block = .ok ()

/-- No two different valid blocks of `B` share a hash. -/
def Binding (hasher : HashPort) (sampler : SamplingPort) (config : ChainConfig)
    (B : Block → Prop) : Prop :=
  ∀ b b', B b → B b' → ValidSomewhere hasher sampler config b →
    ValidSomewhere hasher sampler config b' → blockHash hasher b = blockHash hasher b' → b = b'

/-- A tree of blocks of `B`. -/
structure Grown (hasher : HashPort) (sampler : SamplingPort) (config : ChainConfig)
    (B : Block → Prop) (fc : ForkChoiceState) : Prop where
  tree : Tree hasher sampler fc
  config_eq : fc.config = config
  known : ∀ k n, fc.look k = some n → B n.block

variable {config : ChainConfig} {B : Block → Prop} {fc fc' : ForkChoiceState}

lemma Grown.insertBlock (h : Grown hasher sampler config B fc) {block : Block} (hB : B block) :
    Grown hasher sampler config B (fc.insertBlock hasher sampler block).2 :=
  ⟨h.tree.insertBlock block, (insertBlock_config hasher sampler fc block).trans h.config_eq,
    known_of_insertBlock rfl h.known hB⟩

lemma Grown.validSomewhere (h : Grown hasher sampler config B fc) {k : Digest} {n : ForkNode}
    (hk : fc.look k = some n) : ValidSomewhere hasher sampler config n.block := by
  obtain ⟨ctx, _, _, hv, _⟩ := (h.tree.stored k n hk).made
  rw [h.config_eq] at hv
  exact ⟨ctx, (validateBlockAfter_ok hasher sampler config ctx n.block).mpr hv⟩

/-- **Agreement** of trees that know the same hashes. -/
theorem Grown.agree (hbind : Binding hasher sampler config B)
    (h : Grown hasher sampler config B fc) (h' : Grown hasher sampler config B fc')
    (hdom : ∀ k, fc.containsBlock k = fc'.containsBlock k) : fc = fc' := by
  refine forkChoice_eq h.tree h'.tree (h.config_eq.trans h'.config_eq.symm) hdom ?_
  intro k n m hk hm
  refine hbind _ _ (h.known k n hk) (h'.known k m hm) (h.validSomewhere hk)
    (h'.validSomewhere hm) ?_
  rw [(h.tree.stored k n hk).keyed, (h'.tree.stored k m hm).keyed]

/-! ### Orders of insertion -/

/-- Every insertion of the list succeeds. -/
def allAccepted (hasher : HashPort) (sampler : SamplingPort) :
    ForkChoiceState → List Block → Bool
  | _, [] => true
  | fc, block :: rest =>
    match fc.insertBlock hasher sampler block with
    | (.error _, _) => false
    | (.ok _, fc) => allAccepted hasher sampler fc rest

lemma Grown.insertAll {blocks : List Block} (h : Grown hasher sampler config B fc)
    (hB : ∀ b ∈ blocks, B b) :
    Grown hasher sampler config B (fc.insertAll hasher sampler blocks) := by
  induction blocks generalizing fc with
  | nil => exact h
  | cons block blocks ih =>
    exact ih (h.insertBlock (hB block (by simp))) fun b hb => hB b (by simp [hb])

/-- After successful insertions, exactly the hashes of the list are known besides those known
before. -/
lemma look_insertAll_none {blocks : List Block}
    (hok : allAccepted hasher sampler fc blocks = true) (k : Digest) :
    (fc.insertAll hasher sampler blocks).look k = none ↔
      fc.look k = none ∧ ∀ b ∈ blocks, blockHash hasher b ≠ k := by
  induction blocks generalizing fc with
  | nil => simp [ForkChoiceState.insertAll]
  | cons block blocks ih =>
    rw [allAccepted] at hok
    split at hok
    · cases hok
    · next hash fc₁ hins =>
      rw [insertAll_cons hins, ih hok, look_insertBlock_none hins k, List.forall_mem_cons,
        and_assoc]

/-- Successful insertions of the same blocks in two orders end in one state. -/
theorem insertAll_order {l l' : List Block} (hbind : Binding hasher sampler config B)
    (hB : ∀ b ∈ l, B b) (hsame : ∀ b, b ∈ l ↔ b ∈ l')
    (hok : allAccepted hasher sampler (new config) l = true)
    (hok' : allAccepted hasher sampler (new config) l' = true) :
    (new config).insertAll hasher sampler l = (new config).insertAll hasher sampler l' := by
  have hempty : Grown hasher sampler config B (new config) :=
    ⟨Tree.new hasher sampler config, rfl, known_new config⟩
  refine (hempty.insertAll hB).agree hbind
    (hempty.insertAll fun b hb => hB b ((hsame b).mpr hb)) fun k => ?_
  rw [Bool.eq_iff_iff, ← not_iff_not, Bool.not_eq_true, Bool.not_eq_true, not_containsBlock_iff,
    not_containsBlock_iff, look_insertAll_none hok, look_insertAll_none hok']
  simp only [hsame]

/-! ### The network -/

/-- Nodes and the block messages under way, each with the node it is for. -/
structure Network (ι : Type*) where
  node : ι → NodeState
  inFlight : Multiset (ι × Block)

variable {ι : Type*}

/-- The messages of one broadcast, to the nodes it reaches. -/
def broadcast (recipients : List ι) (block : Block) : Multiset (ι × Block) :=
  (recipients.map fun i => (i, block) : List (ι × Block))

lemma mem_broadcast {recipients : List ι} {block : Block} {m : ι × Block}
    (h : m ∈ broadcast recipients block) : m.2 = block := by
  obtain ⟨i, -, rfl⟩ := List.mem_map.mp (Multiset.mem_coe.mp h)
  rfl

variable [DecidableEq ι]

/-- What the network and its nodes can do. A node that accepts a block passes it on, to
whatever peers it reaches. -/
inductive NetStep (hasher : HashPort) (sampler : SamplingPort) (B : Block → Prop) :
    Network ι → Network ι → Prop
  | mine {net : Network ι} {st : NodeState} {block : Block} (i : ι)
      (trainingSeed samplingEntropy : UInt64) (recipients : List ι) :
      mineOnce hasher sampler trainingSeed samplingEntropy (net.node i) = some (.ok (st, block)) →
      B block →
      NetStep hasher sampler B net
        ⟨Function.update net.node i st, net.inFlight + broadcast recipients block⟩
  | deliver {net : Network ι} (i : ι) (block : Block) (recipients : List ι) :
      (i, block) ∈ net.inFlight →
      NetStep hasher sampler B net
        ⟨Function.update net.node i
            (applyIncomingBlock hasher sampler block .gossip (net.node i)).2,
          net.inFlight.erase (i, block) +
            if (applyIncomingBlock hasher sampler block .gossip (net.node i)).1 = .accepted then
              broadcast recipients block
            else 0⟩
  | duplicate {net : Network ι} (message : ι × Block) : message ∈ net.inFlight →
      NetStep hasher sampler B net ⟨net.node, message ::ₘ net.inFlight⟩
  | drop {net : Network ι} (message : ι × Block) : message ∈ net.inFlight →
      NetStep hasher sampler B net ⟨net.node, net.inFlight.erase message⟩
  /-- Someone outside sends a block. -/
  | inject {net : Network ι} (message : ι × Block) : B message.2 →
      NetStep hasher sampler B net ⟨net.node, message ::ₘ net.inFlight⟩
  /-- A node does something by itself, such as a sync. -/
  | alone {net : Network ι} {st : NodeState} (i : ι) : Step hasher sampler B (net.node i) st →
      NetStep hasher sampler B net ⟨Function.update net.node i st, net.inFlight⟩

/-- Every node has just been started, with one configuration, and nothing is under way. -/
def NetStart (hasher : HashPort) (sampler : SamplingPort) (addr : AddrText)
    (config : ChainConfig) (B : Block → Prop) (net : Network ι) : Prop :=
  (∀ i, Start hasher sampler addr B (net.node i) ∧ (net.node i).forkChoice.config = config) ∧
    net.inFlight = 0

def NetReachable (hasher : HashPort) (sampler : SamplingPort) (addr : AddrText)
    (config : ChainConfig) (B : Block → Prop) (net : Network ι) : Prop :=
  ∃ start, NetStart hasher sampler addr config B start ∧
    Relation.ReflTransGen (NetStep hasher sampler B) start net

/-- The fork choices are trees of blocks of the run, and so are the messages. -/
structure NetInvariant (hasher : HashPort) (sampler : SamplingPort) (config : ChainConfig)
    (B : Block → Prop) (net : Network ι) : Prop where
  grown : ∀ i, Grown hasher sampler config B (net.node i).forkChoice
  messages : ∀ m ∈ net.inFlight, B m.2

lemma Grown.move {st st' : NodeState} (h : Grown hasher sampler config B st.forkChoice)
    (hmove : Move hasher sampler B st st') : Grown hasher sampler config B st'.forkChoice := by
  cases hmove with
  | idle _ hfc _ =>
    rw [hfc]
    exact h
  | take block hB _ hins _ _ _ =>
    have hnext : Grown hasher sampler config B (st.forkChoice.insertBlock hasher sampler block).2 :=
      h.insertBlock hB
    rw [hins] at hnext
    exact hnext

lemma Grown.step {st st' : NodeState} (h : Grown hasher sampler config B st.forkChoice)
    (hstep : Step hasher sampler B st st') : Grown hasher sampler config B st'.forkChoice :=
  run_keeps (P := fun st => Grown hasher sampler config B st.forkChoice)
    (fun _ _ hg hmove => hg.move hmove) (.single hstep) h

lemma grown_update {node : ι → NodeState} {i : ι} {st : NodeState}
    (h : ∀ j, Grown hasher sampler config B (node j).forkChoice)
    (hst : Grown hasher sampler config B st.forkChoice) (j : ι) :
    Grown hasher sampler config B (Function.update node i st j).forkChoice := by
  by_cases he : j = i
  · subst he
    rwa [Function.update_self]
  · rw [Function.update_of_ne he]
    exact h j

/-- **A step of the network** keeps every fork choice a tree of blocks of the run. -/
theorem NetInvariant.step {net net' : Network ι} (h : NetInvariant hasher sampler config B net)
    (hstep : NetStep hasher sampler B net net') : NetInvariant hasher sampler config B net' := by
  cases hstep with
  | mine i seed entropy recipients hmine hB =>
    refine ⟨grown_update h.grown ((h.grown i).step (.mine seed entropy hmine hB)), ?_⟩
    intro m hm
    rcases Multiset.mem_add.mp hm with hm | hm
    · exact h.messages m hm
    · rw [mem_broadcast hm]
      exact hB
  | deliver i block recipients hmem =>
    have hB : B block := h.messages _ hmem
    refine ⟨grown_update h.grown ((h.grown i).step (.incoming block .gossip hB)), ?_⟩
    intro m hm
    rcases Multiset.mem_add.mp hm with hm | hm
    · exact h.messages m (Multiset.mem_of_mem_erase hm)
    · split at hm
      · rw [mem_broadcast hm]
        exact hB
      · exact absurd hm (Multiset.notMem_zero m)
  | duplicate message hmem =>
    refine ⟨h.grown, fun m hm => ?_⟩
    rcases Multiset.mem_cons.mp hm with rfl | hm
    · exact h.messages _ hmem
    · exact h.messages m hm
  | drop message _ =>
    exact ⟨h.grown, fun m hm => h.messages m (Multiset.mem_of_mem_erase hm)⟩
  | inject message hB =>
    refine ⟨h.grown, fun m hm => ?_⟩
    rcases Multiset.mem_cons.mp hm with rfl | hm
    · exact hB
    · exact h.messages m hm
  | alone i hstep => exact ⟨grown_update h.grown ((h.grown i).step hstep), h.messages⟩

lemma NetReachable.invariant {net : Network ι}
    (h : NetReachable hasher sampler addr config B net) :
    NetInvariant hasher sampler config B net := by
  obtain ⟨start, ⟨hstart, hempty⟩, hrun⟩ := h
  induction hrun with
  | refl =>
    refine ⟨fun i => ?_, fun m hm => ?_⟩
    · have hactive := Start.active (hstart i).1
      exact ⟨hactive.tree, (hstart i).2, hactive.known⟩
    · rw [hempty] at hm
      exact absurd hm (Multiset.notMem_zero m)
  | tail _ hstep ih => exact ih.step hstep

/-- **Agreement whatever the order.** In every state of every run of the network, nodes that
know the same hashes have one fork choice, and so one best hash, height, model and chain; and
successful insertions of the same blocks in any two orders end in one state. -/
theorem agreement_whatever_order (hasher : HashPort) (sampler : SamplingPort) (addr : AddrText)
    (config : ChainConfig) (B : Block → Prop) (hbind : Binding hasher sampler config B) :
    (∀ net : Network ι, NetReachable hasher sampler addr config B net → ∀ i j,
      (∀ hash, (net.node i).forkChoice.containsBlock hash =
        (net.node j).forkChoice.containsBlock hash) →
      (net.node i).forkChoice = (net.node j).forkChoice ∧
        (net.node i).forkChoice.bestHash = (net.node j).forkChoice.bestHash ∧
        (net.node i).forkChoice.bestHeight = (net.node j).forkChoice.bestHeight ∧
        (net.node i).forkChoice.bestModel = (net.node j).forkChoice.bestModel ∧
        (net.node i).forkChoice.bestChain = (net.node j).forkChoice.bestChain) ∧
    ∀ l l' : List Block, (∀ b ∈ l, B b) → (∀ b, b ∈ l ↔ b ∈ l') →
      allAccepted hasher sampler (new config) l = true →
      allAccepted hasher sampler (new config) l' = true →
      (new config).insertAll hasher sampler l = (new config).insertAll hasher sampler l' := by
  constructor
  · intro net hnet i j hdom
    have h := hnet.invariant
    have heq := (h.grown i).agree hbind (h.grown j) hdom
    refine ⟨heq, ?_, ?_, ?_, ?_⟩ <;> rw [heq]
  · intro l l' hB hsame hok hok'
    exact insertAll_order hbind hB hsame hok hok'

theorem agreement_whatever_order_two_blocks :
    (new ⟨1, 1, 0⟩).insertAll toyHash deterministicSampler
        [candidate toyHash ⟨1, 1, 0⟩ ParentContext.genesis 1 0 0,
          candidate toyHash ⟨1, 1, 0⟩ ParentContext.genesis 2 0 0] =
      (new ⟨1, 1, 0⟩).insertAll toyHash deterministicSampler
        [candidate toyHash ⟨1, 1, 0⟩ ParentContext.genesis 2 0 0,
          candidate toyHash ⟨1, 1, 0⟩ ParentContext.genesis 1 0 0] := by
  refine (@agreement_whatever_order ℕ _ toyHash deterministicSampler
    ⟨fun _ => [], fun _ => none⟩ ⟨1, 1, 0⟩
    (fun b => b = candidate toyHash ⟨1, 1, 0⟩ ParentContext.genesis 1 0 0 ∨
      b = candidate toyHash ⟨1, 1, 0⟩ ParentContext.genesis 2 0 0) ?_).2 _ _ ?_ ?_ ?_ ?_
  · rintro b b' (rfl | rfl) (rfl | rfl) - - hhash
    · rfl
    · exact absurd hhash (by decide +kernel)
    · exact absurd hhash (by decide +kernel)
    · rfl
  · simp
  · simp [or_comm]
  · decide +kernel
  · decide +kernel

end Chesscoin.Agreement

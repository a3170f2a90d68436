import Mathlib.Algebra.BigOperators.Group.Finset.Piecewise
import Mathlib.Algebra.Order.BigOperators.Group.Finset
import Mathlib.Data.Multiset.Basic
import Chesscoin.Accounting

/-!
Block messages between nodes.

A node that has mined a block, or has accepted one by gossip, calls for one broadcast of it;
the call is made after the state has been let go of, and reads the peers as they are then. The
network hands a message to whichever node listens at its address, late, twice or never, and
outsiders send what they like. A block is announced only when it enters the fork choice, which
happens once, so that messages about it die out even where peers stand in a circle.
-/

namespace Chesscoin.Gossip

open Chesscoin.Lib.Linked Chesscoin.Domain Chesscoin.Simulator Chesscoin.Validation
  Chesscoin.Mining Chesscoin.ForkChoice Chesscoin.ForkTree Chesscoin.ForkInvariant
  Chesscoin.Wire Chesscoin.Runtime Chesscoin.Runs Chesscoin.ActiveView Chesscoin.LocalMining
  Chesscoin.Overlap Chesscoin.Serving Chesscoin.Operations Chesscoin.Accounting
  Chesscoin.Adapters

/-! ### The network -/

/-- The nodes, the broadcasts they have still to make, the messages under way, and what has
happened so far: the broadcasts made, and for each message a node has sent its sender. -/
structure Mesh (ι : Type*) where
  node : ι → NodeState
  owed : Multiset (ι × Block)
  inFlight : Multiset (SocketAddr × Block)
  calls : Multiset (ι × Block)
  sent : Multiset (ι × Block)

variable {ι : Type*}

/-- The broadcast a node owes for a block it hands on. -/
def owing (i : ι) : Option Block → Multiset (ι × Block)
  | none => 0
  | some block => {(i, block)}

variable [DecidableEq ι]

section

variable (hasher : HashPort) (sampler : SamplingPort) (addr : AddrText) (B : Block → Prop)

/-- What nodes and the network can do. -/
inductive MeshStep : Mesh ι → Mesh ι → Prop
  | mine {net : Mesh ι} {st : NodeState} {block : Block} (i : ι) :
      NodeStep hasher sampler addr B (net.node i) (.mined block) st →
      MeshStep net { net with
        node := Function.update net.node i st, owed := net.owed + owing i (some block) }
  | deliver {net : Mesh ι} (i : ι) (address : SocketAddr) (block : Block) :
      (address, block) ∈ net.inFlight →
      MeshStep net { net with
        node := Function.update net.node i (handleBlock hasher sampler block (net.node i)).state
        owed := net.owed + owing i (handleBlock hasher sampler block (net.node i)).relayed
        inFlight := net.inFlight.erase (address, block) }
  /-- The messages of a broadcast go to the peers that can be reached. -/
  | broadcast {net : Mesh ι} (i : ι) (block : Block) (reached : List SocketAddr) :
      (i, block) ∈ net.owed → reached.Sublist (net.node i).peers →
      MeshStep net { net with
        owed := net.owed.erase (i, block)
        inFlight := net.inFlight + (reached.map fun peer => (peer, block) : List _)
        calls := net.calls + {(i, block)}
        sent := net.sent + Multiset.replicate reached.length (i, block) }
  | duplicate {net : Mesh ι} (message : SocketAddr × Block) : message ∈ net.inFlight →
      MeshStep net { net with inFlight := message ::ₘ net.inFlight }
  | drop {net : Mesh ι} (message : SocketAddr × Block) : message ∈ net.inFlight →
      MeshStep net { net with inFlight := net.inFlight.erase message }
  /-- Someone outside sends a block. -/
  | inject {net : Mesh ι} (message : SocketAddr × Block) : B message.2 →
      MeshStep net { net with inFlight := message ::ₘ net.inFlight }
  /-- Whatever else a node does: it syncs, learns of peers, reads other lines. -/
  | alone {net : Mesh ι} {event : Event} {st : NodeState} (i : ι) :
      NodeStep hasher sampler addr B (net.node i) event st →
      (∀ block, event ≠ .mined block) → isGossip event = false →
      MeshStep net { net with node := Function.update net.node i st }

/-- Every node has just been started, and nothing has happened. -/
def MeshStart (net : Mesh ι) : Prop :=
  (∀ i, Started hasher sampler addr B (net.node i)) ∧ net.owed = 0 ∧ net.inFlight = 0 ∧
    net.calls = 0 ∧ net.sent = 0

end

variable {hasher : HashPort} {sampler : SamplingPort} {addr : AddrText} {B : Block → Prop}
  {net net' : Mesh ι} {st st' : NodeState} {block : Block}

/-! ### The history -/

/-- An entry of node `i` for the block of a hash. -/
def About (hasher : HashPort) (i : ι) (hash : Digest) (entry : ι × Block) : Prop :=
  entry.1 = i ∧ blockHash hasher entry.2 = hash

instance (i : ι) (hash : Digest) (entry : ι × Block) : Decidable (About hasher i hash entry) :=
  inferInstanceAs (Decidable (_ ∧ _))

/-- Broadcasts made and owed are of blocks that are known, one of each at most; and what was
sent is no more than the broadcasts made, to the peers there are. -/
structure Quiescing (hasher : HashPort) (sampler : SamplingPort) (B : Block → Prop)
    (net : Mesh ι) : Prop where
  active : ∀ i, Active hasher sampler B (net.node i)
  messages : ∀ m ∈ net.inFlight, B m.2
  owed : ∀ m ∈ net.owed, B m.2
  once : ∀ i hash, (net.calls + net.owed).countP (About hasher i hash) ≤
    ((net.node i).forkChoice.containsBlock hash).toNat
  sent : ∀ i hash, net.sent.countP (About hasher i hash) ≤
    net.calls.countP (About hasher i hash) * (net.node i).peers.length

/-- What an operation of a node must do to keep the history right: it forgets no block and no
peer, and what it hands on was not known and is. -/
structure Announces (hasher : HashPort) (B : Block → Prop) (st : NodeState)
    (relayed : Option Block) (st' : NodeState) : Prop where
  grows : ∀ k, st.forkChoice.containsBlock k = true → st'.forkChoice.containsBlock k = true
  peers : st.peers <+: st'.peers
  new : ∀ b, relayed = some b → B b ∧ st.forkChoice.look (blockHash hasher b) = none ∧
    st'.forkChoice.containsBlock (blockHash hasher b) = true

lemma NodeStep.grows {event : Event} (h : NodeStep hasher sampler addr B st event st') :
    ∀ k, st.forkChoice.containsBlock k = true → st'.forkChoice.containsBlock k = true :=
  fun _ hk => containsBlock_mono (run_grows (.single h.step)).1 hk

lemma mine_announces (hown : OwnHashes hasher B) (hactive : Active hasher sampler B st)
    (hfit : ScoresFit st.forkChoice)
    (h : NodeStep hasher sampler addr B st (.mined block) st') :
    Announces hasher B st (some block) st' := by
  refine ⟨NodeStep.grows h, (NodeStep.kept hown hactive hfit h).peers, ?_⟩
  intro b hb
  cases hb
  rcases h.cases with ⟨b, trainingSeed, samplingEntropy, hevent, hB, hmine⟩ | ⟨b, hevent, -⟩ |
    ⟨answer, hevent, -⟩ | ⟨-, ⟨hevent, -⟩ | ⟨hevent, -⟩⟩ <;> cases hevent
  obtain ⟨hmined, hins, -⟩ := mineOnce_counts hmine
  exact ⟨hB, mined_new hactive.tree hfit hactive.known hown.nonzero hown.distinct hB hmined,
    (containsBlock_iff _).mpr (look_insertBlock_self hins)⟩

lemma handleBlock_announces (hB : B block) (st : NodeState) :
    Announces hasher B st (handleBlock hasher sampler block st).relayed
      (handleBlock hasher sampler block st).state := by
  have hkept := applyIncomingBlock_kept hasher sampler block st
  rcases applyIncomingBlock_cases hasher sampler block .gossip st with
    ⟨-, hr⟩ | ⟨e, -, hr⟩ | ⟨st', hnew, hins, -, -, hr⟩
  · rw [handleBlock, hr]
    refine ⟨fun _ hk => hk, List.prefix_rfl, ?_⟩
    intro b hb
    cases hb
  · rw [handleBlock, hr]
    refine ⟨fun _ hk => hk, List.prefix_rfl, ?_⟩
    intro b hb
    cases hb
  · rw [hr] at hkept
    rw [handleBlock, hr]
    refine ⟨fun _ hk => containsBlock_mono (extends_of_insertBlock hins) hk, hkept.peers, ?_⟩
    intro b hb
    cases hb
    exact ⟨hB, hnew, (containsBlock_iff _).mpr (look_insertBlock_self hins)⟩

/-! ### What a step keeps -/

omit [DecidableEq ι] in
lemma mem_owing {i : ι} {relayed : Option Block} {m : ι × Block} (h : m ∈ owing i relayed) :
    relayed = some m.2 := by
  cases relayed with
  | none => exact absurd h (Multiset.notMem_zero m)
  | some b => rw [Multiset.mem_singleton.mp h]

/-- What is owed for a block counts once, for its node and its hash. -/
lemma countP_owing (hasher : HashPort) (i j : ι) (hash : Digest) (relayed : Option Block) :
    (owing i relayed).countP (About hasher j hash) ≤ 1 ∧
      ((owing i relayed).countP (About hasher j hash) ≠ 0 →
        j = i ∧ ∃ b, relayed = some b ∧ blockHash hasher b = hash) := by
  cases relayed with
  | none => exact ⟨Nat.zero_le 1, fun h => absurd (Multiset.countP_zero _) h⟩
  | some b =>
    rw [owing, ← Multiset.cons_zero, Multiset.countP_cons, Multiset.countP_zero, Nat.zero_add]
    split
    · next h => exact ⟨le_rfl, fun _ => ⟨h.1.symm, b, rfl, h.2⟩⟩
    · exact ⟨Nat.zero_le 1, fun h => absurd rfl h⟩

/-- An operation of one node keeps the history right. -/
lemma Quiescing.act (h : Quiescing hasher sampler B net) {i : ι} {relayed : Option Block}
    (hactive : Active hasher sampler B st)
    (hannounces : Announces hasher B (net.node i) relayed st)
    {inFlight : Multiset (SocketAddr × Block)} (hmessages : ∀ m ∈ inFlight, B m.2) :
    Quiescing hasher sampler B
      { net with
        node := Function.update net.node i st
        owed := net.owed + owing i relayed
        inFlight := inFlight } := by
  have hgrows : ∀ j k, (net.node j).forkChoice.containsBlock k = true →
      (Function.update net.node i st j).forkChoice.containsBlock k = true := by
    intro j k hk
    by_cases he : j = i
    · subst he
      rw [Function.update_self]
      exact hannounces.grows k hk
    · rwa [Function.update_of_ne he]
  refine ⟨?_, hmessages, ?_, ?_, ?_⟩ <;> simp only
  · intro j
    by_cases he : j = i
    · subst he
      rwa [Function.update_self]
    · rw [Function.update_of_ne he]
      exact h.active j
  · intro m hm
    rcases Multiset.mem_add.mp hm with hm | hm
    · exact h.owed m hm
    · exact (hannounces.new _ (mem_owing hm)).1
  · intro j hash
    have honce := h.once j hash
    obtain ⟨hle, hsome⟩ := countP_owing hasher i j hash relayed
    rw [← add_assoc, Multiset.countP_add]
    by_cases hzero : (owing i relayed).countP (About hasher j hash) = 0
    · rw [hzero, Nat.add_zero]
      exact honce.trans (Bool.toNat_le_toNat (Bool.le_iff_imp.mpr (hgrows j hash)))
    · -- the block is handed on for the first time, so nothing was made or owed for it before
      obtain ⟨rfl, b, rfl, rfl⟩ := hsome hzero
      obtain ⟨-, hnew, hknown⟩ := hannounces.new b rfl
      rw [(not_containsBlock_iff _).mpr hnew, Bool.toNat_false] at honce
      rw [Function.update_self, hknown, Nat.le_zero.mp honce, Nat.zero_add]
      exact hle
  · intro j hash
    refine (h.sent j hash).trans (Nat.mul_le_mul_left _ ?_)
    by_cases he : j = i
    · subst he
      rw [Function.update_self]
      exact hannounces.peers.length_le
    · rw [Function.update_of_ne he]

/-- A broadcast that was owed is made. -/
lemma Quiescing.broadcast (h : Quiescing hasher sampler B net) {i : ι}
    (hmem : (i, block) ∈ net.owed) {reached : List SocketAddr}
    (hsub : reached.Sublist (net.node i).peers) :
    Quiescing hasher sampler B
      { net with
        owed := net.owed.erase (i, block)
        inFlight := net.inFlight + (reached.map fun peer => (peer, block) : List _)
        calls := net.calls + {(i, block)}
        sent := net.sent + Multiset.replicate reached.length (i, block) } := by
  refine ⟨h.active, ?_, fun m hm => h.owed m (Multiset.mem_of_mem_erase hm), ?_, ?_⟩ <;> simp only
  · intro m hm
    rcases Multiset.mem_add.mp hm with hm | hm
    · exact h.messages m hm
    · obtain ⟨peer, -, rfl⟩ := List.mem_map.mp (Multiset.mem_coe.mp hm)
      exact h.owed _ hmem
  · intro j hash
    have hmoved : net.calls + {(i, block)} + net.owed.erase (i, block) = net.calls + net.owed := by
      rw [add_assoc, Multiset.singleton_add, Multiset.cons_erase hmem]
    rw [hmoved]
    exact h.once j hash
  · intro j hash
    have hsent := h.sent j hash
    rw [Multiset.countP_add, Multiset.countP_add, ← Multiset.coe_replicate, Multiset.coe_countP,
      List.countP_replicate, ← Multiset.cons_zero, Multiset.countP_cons, Multiset.countP_zero,
      Nat.zero_add, Nat.add_mul]
    by_cases habout : About hasher j hash (i, block)
    · have hi : i = j := habout.1
      subst hi
      have hlen := hsub.length_le
      simp only [habout, decide_true, if_true]
      omega
    · simp only [habout, decide_false, if_false]
      simpa using hsent

/-- **A step keeps the history right.** -/
theorem Quiescing.step (h : Quiescing hasher sampler B net) (hown : OwnHashes hasher B)
    (hfit : ∀ i, ScoresFit (net.node i).forkChoice)
    (hstep : MeshStep hasher sampler addr B net net') : Quiescing hasher sampler B net' := by
  cases hstep with
  | mine i hmine =>
    exact h.act ((h.active i).run hown.nonzero (.single hmine.step))
      (mine_announces hown (h.active i) (hfit i) hmine) h.messages
  | deliver i address block hmem =>
    have hB : B block := h.messages _ hmem
    refine h.act ?_ (handleBlock_announces hB _) fun m hm =>
      h.messages m (Multiset.mem_of_mem_erase hm)
    rw [handleBlock_state]
    exact (h.active i).run hown.nonzero (.single (.incoming block .gossip hB))
  | broadcast i block reached hmem hsub => exact h.broadcast hmem hsub
  | duplicate message hmem =>
    refine ⟨h.active, fun m hm => ?_, h.owed, h.once, h.sent⟩
    rcases Multiset.mem_cons.mp hm with rfl | hm
    · exact h.messages _ hmem
    · exact h.messages m hm
  | drop message hmem =>
    exact ⟨h.active, fun m hm => h.messages m (Multiset.mem_of_mem_erase hm), h.owed, h.once,
      h.sent⟩
  | inject message hB =>
    refine ⟨h.active, fun m hm => ?_, h.owed, h.once, h.sent⟩
    rcases Multiset.mem_cons.mp hm with rfl | hm
    · exact hB
    · exact h.messages m hm
  | alone i hstep _ _ =>
    have hannounces : Announces hasher B (net.node i) none _ :=
      ⟨NodeStep.grows hstep, (NodeStep.kept hown (h.active i) (hfit i) hstep).peers,
        fun b hb => nomatch hb⟩
    have hact := h.act ((h.active i).run hown.nonzero (.single hstep.step)) hannounces h.messages
    rwa [owing, add_zero] at hact

/-! ### Runs -/

/-- No node of the network forgets a block. -/
lemma MeshStep.grows (h : MeshStep hasher sampler addr B net net') (i : ι) :
    Extends (net.node i).forkChoice.look (net'.node i).forkChoice.look ∧
      (net'.node i).forkChoice.config = (net.node i).forkChoice.config := by
  have hupdate : ∀ (C : Block → Prop) j st, Step hasher sampler C (net.node j) st →
      Extends (net.node i).forkChoice.look (Function.update net.node j st i).forkChoice.look ∧
        (Function.update net.node j st i).forkChoice.config =
          (net.node i).forkChoice.config := by
    intro C j st hstep
    by_cases he : i = j
    · subst he
      rw [Function.update_self]
      exact run_grows (.single hstep)
    · rw [Function.update_of_ne he]
      exact ⟨Extends.refl _, rfl⟩
  cases h with
  | mine j hmine => exact hupdate B j _ hmine.step
  | deliver j address block hmem =>
    have hincoming : Step hasher sampler (fun _ => True) (net.node j)
        (handleBlock hasher sampler block (net.node j)).state := by
      rw [handleBlock_state]
      exact .incoming block .gossip trivial
    exact hupdate _ j _ hincoming
  | alone j hstep _ _ => exact hupdate B j _ hstep.step
  | _ => exact ⟨Extends.refl _, rfl⟩

lemma MeshStart.quiescing (h : MeshStart hasher sampler addr B net) :
    Quiescing hasher sampler B net := by
  obtain ⟨hstart, howed, hinFlight, hcalls, hsent⟩ := h
  refine ⟨fun i => Start.active (hstart i).start, ?_, ?_, ?_, ?_⟩
  · intro m hm
    rw [hinFlight] at hm
    exact absurd hm (Multiset.notMem_zero m)
  · intro m hm
    rw [howed] at hm
    exact absurd hm (Multiset.notMem_zero m)
  · intro i hash
    rw [hcalls, howed]
    exact Nat.zero_le _
  · intro i hash
    rw [hsent]
    exact Nat.zero_le _

theorem Quiescing.run (hown : OwnHashes hasher B) (h : Quiescing hasher sampler B net)
    (hrun : Relation.ReflTransGen (MeshStep hasher sampler addr B) net net')
    (hfit : ∀ i, ScoresFit (net'.node i).forkChoice) : Quiescing hasher sampler B net' := by
  induction hrun with
  | refl => exact h
  | tail _ hstep ih =>
    have hbefore := fun i =>
      scoresFit_mono (MeshStep.grows hstep i).1 (MeshStep.grows hstep i).2 (hfit i)
    exact (ih hbefore).step hown hbefore hstep

/-- What has been sent about a block, node by node. -/
lemma countP_byNode [Fintype ι] (entries : Multiset (ι × Block)) (hash : Digest) :
    entries.countP (fun entry => blockHash hasher entry.2 = hash) =
      ∑ i, entries.countP (About hasher i hash) := by
  induction entries using Multiset.induction_on with
  | empty => simp
  | cons entry entries ih =>
    have hone : (∑ i, if About hasher i hash entry then 1 else 0) =
        if blockHash hasher entry.2 = hash then 1 else 0 := by
      by_cases hhash : blockHash hasher entry.2 = hash
      · simp [About, hhash]
      · simp [About, hhash]
    rw [Multiset.countP_cons, ih, ← hone, ← Finset.sum_add_distrib]
    exact Finset.sum_congr rfl fun i _ => (Multiset.countP_cons _ _ _).symm

/-- **Gossip does not storm.** In a network of any number of nodes, with any peers, whose block
messages are delayed, reordered, duplicated, dropped and injected: a node broadcasts the block
of a hash at most once, and the messages all nodes send about it are no more than the peers
they have. -/
theorem gossip_does_not_storm [Fintype ι] (hasher : HashPort) (sampler : SamplingPort)
    (addr : AddrText) (B : Block → Prop) (hown : OwnHashes hasher B) (start net : Mesh ι)
    (hstart : MeshStart hasher sampler addr B start)
    (hrun : Relation.ReflTransGen (MeshStep hasher sampler addr B) start net)
    (hfit : ∀ i, ScoresFit (net.node i).forkChoice) (hash : Digest) :
    (∀ i, net.calls.countP (About hasher i hash) ≤ 1) ∧
      net.sent.countP (fun entry => blockHash hasher entry.2 = hash) ≤
        ∑ i, (net.node i).peers.length := by
  have h := (MeshStart.quiescing hstart).run hown hrun hfit
  have honce : ∀ i, net.calls.countP (About hasher i hash) ≤ 1 := by
    intro i
    calc net.calls.countP (About hasher i hash)
        ≤ (net.calls + net.owed).countP (About hasher i hash) :=
          Multiset.countP_le_of_le _ (Multiset.le_add_right _ _)
      _ ≤ ((net.node i).forkChoice.containsBlock hash).toNat := h.once i hash
      _ ≤ 1 := Bool.toNat_le _
  refine ⟨honce, ?_⟩
  rw [countP_byNode]
  refine Finset.sum_le_sum fun i _ => (h.sent i hash).trans ?_
  calc _ ≤ 1 * (net.node i).peers.length := Nat.mul_le_mul_right _ (honce i)
    _ = (net.node i).peers.length := Nat.one_mul _

/-- Two nodes that have just been started. -/
def pair : Mesh Bool := ⟨fun _ => freshNode ⟨1, 1, 0⟩ none, 0, 0, 0, 0⟩

def rumour : Block := candidate toyHash ⟨1, 1, 0⟩ ParentContext.genesis 1 0 0

def neighbour : SocketAddr := .v4 0x7f000001 9444

/-- A node of the pair that has met a peer. -/
def met : NodeState := (addPeer neighbour (freshNode ⟨1, 1, 0⟩ none)).2

/-- The same node once it has been sent a block. -/
def told : NodeState := (handleBlock toyHash deterministicSampler rumour met).state

/-- The pair after the block has been broadcast. -/
def spread : Mesh Bool :=
  ⟨Function.update pair.node true told, 0, {(neighbour, rumour)}, {(true, rumour)},
    {(true, rumour)}⟩

lemma met_relays : (handleBlock toyHash deterministicSampler rumour met).relayed = some rumour ∧
    told.forkChoice.knownBlockCount *
      configuredBlockWorkScore told.forkChoice.config.difficultyZeroBits < 2 ^ 128 ∧
    told.peers = [neighbour] ∧ blockHash toyHash rumour ≠ Digest.zero := by
  decide +kernel

lemma told_steps : Relation.ReflTransGen (Step toyHash deterministicSampler (· = rumour))
    (freshNode ⟨1, 1, 0⟩ none) told := by
  have hmet : Step toyHash deterministicSampler (· = rumour) (freshNode ⟨1, 1, 0⟩ none) met :=
    .other rfl rfl rfl
  refine .tail (.single hmet) ?_
  rw [told, handleBlock_state]
  exact .incoming rumour .gossip rfl

lemma spread_run (addr : AddrText) :
    Relation.ReflTransGen (MeshStep toyHash deterministicSampler addr (· = rumour))
      pair spread := by
  let net₁ : Mesh Bool := { pair with node := Function.update pair.node true met }
  let net₂ : Mesh Bool := { net₁ with inFlight := {(neighbour, rumour)} }
  let net₃ : Mesh Bool := { net₂ with
    node := Function.update net₁.node true told
    owed := {(true, rumour)}
    inFlight := 0 }
  have hmet : MeshStep toyHash deterministicSampler addr (· = rumour) pair net₁ :=
    .alone true (.addPeer neighbour) (by simp) rfl
  have hsent : MeshStep toyHash deterministicSampler addr (· = rumour) net₁ net₂ :=
    .inject (neighbour, rumour) rfl
  have hdelivered : MeshStep toyHash deterministicSampler addr (· = rumour) net₂ net₃ := by
    have hself : net₂.node true = met := by simp [net₂, net₁]
    have hstep : MeshStep toyHash deterministicSampler addr (· = rumour) net₂ _ :=
      .deliver true neighbour rumour (Multiset.mem_singleton_self _)
    rw [hself, met_relays.1] at hstep
    simpa [net₂, net₃, net₁, pair, owing, told] using hstep
  have hcalled : MeshStep toyHash deterministicSampler addr (· = rumour) net₃ spread := by
    have hpeers : (net₃.node true).peers = [neighbour] := by
      simp [net₃, met_relays.2.2.1]
    have hstep : MeshStep toyHash deterministicSampler addr (· = rumour) net₃ _ :=
      .broadcast true rumour [neighbour] (Multiset.mem_singleton_self _) (by rw [hpeers])
    simpa [net₂, net₃, net₁, pair, spread] using hstep
  exact .tail (.tail (.tail (.single hmet) hsent) hdelivered) hcalled

theorem gossip_does_not_storm_pair :
    spread.calls.countP (About toyHash true (blockHash toyHash rumour)) ≤ 1 ∧
      spread.sent.countP (fun entry => blockHash toyHash entry.2 = blockHash toyHash rumour) ≤
        ∑ i, (spread.node i).peers.length := by
  let noAddr : AddrText := ⟨fun _ => [], fun _ => none⟩
  have hown : OwnHashes toyHash (· = rumour) :=
    ⟨fun b hb => by subst hb; exact met_relays.2.2.2, fun b b' hb hb' _ => by rw [hb, hb']⟩
  have hstart : Start toyHash deterministicSampler noAddr (· = rumour)
      (freshNode ⟨1, 1, 0⟩ none) := freshNode_start _
  have htold := ((Start.active hstart).run hown.nonzero told_steps).tree
  have hfit : ∀ i, ScoresFit (spread.node i).forkChoice := by
    intro i
    cases i with
    | false =>
      have hnode : spread.node false = freshNode ⟨1, 1, 0⟩ none := by simp [spread, pair]
      rw [hnode]
      exact fun k _ _ hk => nomatch (look_new _ k).symm.trans hk
    | true =>
      have hnode : spread.node true = told := by simp [spread]
      rw [hnode]
      exact scoresFit_of_count htold met_relays.2.1
  obtain ⟨honce, hsum⟩ := gossip_does_not_storm toyHash deterministicSampler noAddr _ hown pair
    spread ⟨fun _ => freshNode_started, rfl, rfl, rfl, rfl⟩ (spread_run noAddr) hfit
    (blockHash toyHash rumour)
  exact ⟨honce true, hsum⟩

end Chesscoin.Gossip

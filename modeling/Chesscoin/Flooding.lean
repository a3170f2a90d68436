import Chesscoin.Lib.Flood
import Chesscoin.Gossip
import Chesscoin.Spreading

/-!
How far a block travels by gossip.

A broadcast reaches the peers that listen, and what has been sent to them arrives in the end. A node
hands a block on once, when it is taken in; a block it has learnt of by a sync it does not hand on.
So a block that comes up in the network and is not synced meanwhile reaches every node that can be
reached from any that has it, along the peers they had at the start, if the blocks below it were
known everywhere; and the messages about it die out by themselves.
-/

namespace Chesscoin.Flooding

open Chesscoin.Lib.Linked Chesscoin.Lib.Flood Chesscoin.Domain Chesscoin.Simulator
  Chesscoin.Validation Chesscoin.Mining Chesscoin.ForkChoice Chesscoin.ForkTree
  Chesscoin.ForkInvariant Chesscoin.Wire Chesscoin.Runtime Chesscoin.Runs Chesscoin.ActiveView
  Chesscoin.LocalMining Chesscoin.Overlap Chesscoin.Serving Chesscoin.Operations
  Chesscoin.Accounting Chesscoin.Gossip Chesscoin.Spreading Chesscoin.Adapters

variable {ι : Type*} [DecidableEq ι]

section

variable (hasher : HashPort) (sampler : SamplingPort) (addr : AddrText) (B : Block → Prop)
  (listens : SocketAddr → Option ι) (hash : Digest)

/-- What nodes and the network can do where messages about the block of a hash get through: one is
brought to the node that listens at its address, a broadcast of the block leaves no peer out that
listens, and no node is brought the block by a sync. All else is as it may be. -/
inductive FloodStep : Mesh ι → Mesh ι → Prop
  | mine {net : Mesh ι} {st : NodeState} {block : Block} (i : ι) :
      NodeStep hasher sampler addr B (net.node i) (.mined block) st →
      FloodStep net { net with
        node := Function.update net.node i st, owed := net.owed + owing i (some block) }
  | deliver {net : Mesh ι} (i : ι) (address : SocketAddr) (block : Block) :
      listens address = some i → (address, block) ∈ net.inFlight →
      FloodStep net { net with
        node := Function.update net.node i (handleBlock hasher sampler block (net.node i)).state
        owed := net.owed + owing i (handleBlock hasher sampler block (net.node i)).relayed
        inFlight := net.inFlight.erase (address, block) }
  | broadcast {net : Mesh ι} (i : ι) (block : Block) (reached : List SocketAddr) :
      (i, block) ∈ net.owed → reached.Sublist (net.node i).peers →
      (blockHash hasher block = hash → ∀ peer ∈ (net.node i).peers, (listens peer).isSome →
        peer ∈ reached) →
      FloodStep net { net with
        owed := net.owed.erase (i, block)
        inFlight := net.inFlight + (reached.map fun peer => (peer, block) : List _)
        calls := net.calls + {(i, block)}
        sent := net.sent + Multiset.replicate reached.length (i, block) }
  | duplicate {net : Mesh ι} (message : SocketAddr × Block) : message ∈ net.inFlight →
      FloodStep net { net with inFlight := message ::ₘ net.inFlight }
  | drop {net : Mesh ι} (message : SocketAddr × Block) : message ∈ net.inFlight →
      (blockHash hasher message.2 = hash → listens message.1 = none) →
      FloodStep net { net with inFlight := net.inFlight.erase message }
  | inject {net : Mesh ι} (message : SocketAddr × Block) : B message.2 →
      FloodStep net { net with inFlight := message ::ₘ net.inFlight }
  | alone {net : Mesh ι} {event : Event} {st : NodeState} (i : ι) :
      NodeStep hasher sampler addr B (net.node i) event st →
      (∀ block, event ≠ .mined block) → isGossip event = false →
      (st.forkChoice.containsBlock hash = true →
        (net.node i).forkChoice.containsBlock hash = true) →
      FloodStep net { net with node := Function.update net.node i st }

/-- A block that every node would take in, as its parent is known and it is valid after it. -/
def Fits (nodes : ι → NodeState) (block : Block) : Prop :=
  ∀ i, ∃ ctx score, (nodes i).forkChoice.parentContext block = .ok (ctx, score) ∧
    Valid hasher sampler (nodes i).forkChoice.config ctx block

/-- A block of the hash that every node would have taken in at the start. -/
def Spreadable (start : Mesh ι) (block : Block) : Prop :=
  blockHash hasher block = hash ∧ Fits hasher sampler start.node block

/-- How the news of a block stands in the network. -/
def newsOf (start net : Mesh ι) : News ι where
  knows := {i | (net.node i).forkChoice.containsBlock hash = true}
  owes := {i | ∃ block, (i, block) ∈ net.owed ∧ Spreadable hasher sampler hash start block}
  called := {i | ∃ address block, (address, block) ∈ net.inFlight ∧ listens address = some i ∧
    Spreadable hasher sampler hash start block}

/-- A network of nodes of one configuration in which the block of the hash is new and the block
below it is known. -/
structure Expecting (start : Mesh ι) : Prop where
  quiescing : Quiescing hasher sampler B start
  config : ∀ i j, (start.node i).forkChoice.config = (start.node j).forkChoice.config
  unknown : ∀ i, (start.node i).forkChoice.containsBlock hash = false
  parent : ∀ block, B block → blockHash hasher block = hash → ∀ i,
    block.header.previousBlock = Digest.zero ∨
      (start.node i).forkChoice.containsBlock block.header.previousBlock = true

end

variable {hasher : HashPort} {sampler : SamplingPort} {addr : AddrText} {B : Block → Prop}
  {listens : SocketAddr → Option ι} {hash : Digest} {start net net' : Mesh ι} {block : Block}

lemma FloodStep.mesh (h : FloodStep hasher sampler addr B listens hash net net') :
    MeshStep hasher sampler addr B net net' := by
  cases h with
  | mine i hmine => exact .mine i hmine
  | deliver i address block _ hmem => exact .deliver i address block hmem
  | broadcast i block reached hmem hsub _ => exact .broadcast i block reached hmem hsub
  | duplicate message hmem => exact .duplicate message hmem
  | drop message hmem _ => exact .drop message hmem
  | inject message hB => exact .inject message hB
  | alone i hstep hmined hgossip _ => exact .alone i hstep hmined hgossip

/-! ### What the nodes have in common -/

omit [DecidableEq ι] in
/-- The context of a block is the same in every tree that knows its parent. -/
lemma parentContext_same (hown : OwnHashes hasher B) {fc fc' : ForkChoiceState}
    (h : Tree hasher sampler fc) (hknown : ∀ k n, fc.look k = some n → B n.block)
    (h' : Tree hasher sampler fc') (hknown' : ∀ k n, fc'.look k = some n → B n.block)
    {ctx ctx' : ParentContext} {score score' : ℕ}
    (hctx : fc.parentContext block = .ok (ctx, score))
    (hctx' : fc'.parentContext block = .ok (ctx', score')) : ctx' = ctx := by
  rcases parentContext_ok hctx with ⟨hz, rfl, -⟩ | ⟨hz, n, hn, rfl, -⟩
  · rcases parentContext_ok hctx' with ⟨-, rfl, -⟩ | ⟨hz', -⟩
    · rfl
    · exact absurd hz hz'
  · rcases parentContext_ok hctx' with ⟨hz', -⟩ | ⟨-, m, hm, rfl, -⟩
    · exact absurd hz' hz
    · have hstored := h.stored _ n hn
      have hstored' := h'.stored _ m hm
      have hheader := hown.distinct _ _ (hknown' _ m hm) (hknown _ n hn)
        (hstored'.keyed.trans hstored.keyed.symm)
      rw [hstored.nextHeight, hstored'.nextHeight, hstored.hash, hstored'.hash, hheader]

/-- **A block that one node has taken in** is one that all would have taken in. -/
lemma Expecting.spreadable (h : Expecting hasher sampler B hash start)
    (hown : OwnHashes hasher B) {fc fc' : ForkChoiceState} (htree : Tree hasher sampler fc)
    (hknown : ∀ k n, fc.look k = some n → B n.block) {i : ι}
    (hconfig : fc.config = (start.node i).forkChoice.config) (hB : B block)
    (hhash : blockHash hasher block = hash) (hnew : fc.look hash = none) {r : Digest}
    (hins : fc.insertBlock hasher sampler block = (.ok r, fc')) :
    Spreadable hasher sampler hash start block := by
  subst hhash
  obtain ⟨ctx, score, hctx, hvalid, -, -⟩ := insertBlock_taken hnew hins
  refine ⟨rfl, fun j => ?_⟩
  obtain ⟨ctx', score', hctx'⟩ := parentContext_of_known (h.parent block hB rfl j)
  have hactive := h.quiescing.active j
  refine ⟨ctx', score', hctx', ?_⟩
  rw [parentContext_same hown htree hknown hactive.tree hactive.known hctx hctx',
    h.config j i, ← hconfig]
  exact hvalid

omit [DecidableEq ι] in
/-- A block that fitted at the start is known to a node that has been sent it. -/
lemma handleBlock_learns {st st₀ : NodeState} {ctx : ParentContext} {score : ℕ}
    (hctx : st₀.forkChoice.parentContext block = .ok (ctx, score))
    (hvalid : Valid hasher sampler st₀.forkChoice.config ctx block)
    (hext : Extends st₀.forkChoice.look st.forkChoice.look)
    (hconfig : st.forkChoice.config = st₀.forkChoice.config) :
    (handleBlock hasher sampler block st).state.forkChoice.containsBlock
      (blockHash hasher block) = true := by
  rw [handleBlock_state]
  rcases applyIncomingBlock_cases hasher sampler block .gossip st with
    ⟨hknown, hr⟩ | ⟨e, hins, -⟩ | ⟨st', -, hins, -, -, hr⟩
  · rwa [hr]
  · cases hknown : st.forkChoice.containsBlock (blockHash hasher block) with
    | true =>
      rw [ForkChoiceState.insertBlock, if_pos hknown] at hins
      cases hins
    | false =>
      rw [insertBlock_valid ((not_containsBlock_iff _).mp hknown) (parentContext_mono hext hctx)
        (by rwa [hconfig])] at hins
      cases hins
  · rw [hr]
    exact (containsBlock_iff _).mpr (look_insertBlock_self hins)

/-! ### Steps -/

lemma MeshStep.peers (hown : OwnHashes hasher B) (h : Quiescing hasher sampler B net)
    (hfit : ∀ i, ScoresFit (net.node i).forkChoice)
    (hstep : MeshStep hasher sampler addr B net net') (i : ι) :
    (net.node i).peers <+: (net'.node i).peers := by
  have hupdate : ∀ j st, (net.node j).peers <+: st.peers →
      (net.node i).peers <+: (Function.update net.node j st i).peers := by
    intro j st hpeers
    by_cases he : i = j
    · subst he
      rwa [Function.update_self]
    · rw [Function.update_of_ne he]
  cases hstep with
  | mine j hmine => exact hupdate j _ (mine_announces hown (h.active j) (hfit j) hmine).peers
  | deliver j address block hmem =>
    exact hupdate j _ (handleBlock_announces (h.messages _ hmem) _).peers
  | alone j hstep _ _ => exact hupdate j _ (NodeStep.kept hown (h.active j) (hfit j) hstep).peers
  | broadcast _ _ _ _ _ | duplicate _ _ | drop _ _ | inject _ _ => exact List.prefix_rfl

/-- What the network has kept since the start. -/
structure Afloat (hasher : HashPort) (sampler : SamplingPort) (B : Block → Prop)
    (start net : Mesh ι) : Prop where
  quiescing : Quiescing hasher sampler B net
  grows : ∀ i, Extends (start.node i).forkChoice.look (net.node i).forkChoice.look ∧
    (net.node i).forkChoice.config = (start.node i).forkChoice.config
  peers : ∀ i, (start.node i).peers <+: (net.node i).peers

lemma Afloat.step (h : Afloat hasher sampler B start net) (hown : OwnHashes hasher B)
    (hfit : ∀ i, ScoresFit (net.node i).forkChoice)
    (hstep : MeshStep hasher sampler addr B net net') : Afloat hasher sampler B start net' := by
  refine ⟨h.quiescing.step hown hfit hstep, fun i => ?_, fun i => ?_⟩
  · obtain ⟨hext, hconfig⟩ := MeshStep.grows hstep i
    exact ⟨(h.grows i).1.trans hext, hconfig.trans (h.grows i).2⟩
  · exact (h.peers i).trans (MeshStep.peers hown h.quiescing hfit hstep i)

/-- What a node does of itself spreads the news, if it owes the block it has learnt of. -/
lemma act_spreads {i : ι} {st : NodeState} {relayed : Option Block}
    {inFlight : Multiset (SocketAddr × Block)}
    (hgrows : ∀ k, (net.node i).forkChoice.containsBlock k = true →
      st.forkChoice.containsBlock k = true)
    (hlearns : (net.node i).forkChoice.containsBlock hash = false →
      st.forkChoice.containsBlock hash = true →
        ∃ block, relayed = some block ∧ Spreadable hasher sampler hash start block)
    (hhears : ∀ address block j, (address, block) ∈ net.inFlight → listens address = some j →
      Spreadable hasher sampler hash start block → (address, block) ∈ inFlight ∨
        j = i ∧ st.forkChoice.containsBlock hash = true) {edge : ι → ι → Prop} :
    Spreads edge (newsOf hasher sampler listens hash start net)
      (newsOf hasher sampler listens hash start { net with
        node := Function.update net.node i st
        owed := net.owed + owing i relayed
        inFlight := inFlight }) := by
  refine ⟨fun j hj => ?_, fun j hj => ?_, fun j hj => ?_, fun j hj => ?_⟩
  · show (Function.update net.node i st j).forkChoice.containsBlock hash = true
    by_cases he : j = i
    · subst he
      rw [Function.update_self]
      exact hgrows hash hj
    · rw [Function.update_of_ne he]
      exact hj
  · replace hj : (Function.update net.node i st j).forkChoice.containsBlock hash = true := hj
    by_cases he : j = i
    · subst he
      rw [Function.update_self] at hj
      cases hold : (net.node j).forkChoice.containsBlock hash with
      | true => exact .inl hold
      | false =>
        obtain ⟨block, rfl, hspread⟩ := hlearns hold hj
        exact .inr ⟨block, Multiset.mem_add.mpr (.inr (Multiset.mem_singleton_self _)), hspread⟩
    · rw [Function.update_of_ne he] at hj
      exact .inl hj
  · obtain ⟨block, hmem, hspread⟩ := hj
    exact .inl ⟨block, Multiset.mem_add.mpr (.inl hmem), hspread⟩
  · obtain ⟨address, block, hmem, hlisten, hspread⟩ := hj
    rcases hhears address block j hmem hlisten hspread with hleft | ⟨rfl, hknown⟩
    · exact .inl ⟨address, block, hleft, hlisten, hspread⟩
    · refine .inr ?_
      show (Function.update net.node j st j).forkChoice.containsBlock hash = true
      rwa [Function.update_self]

/-- **A step spreads the news** along the peers of the start. -/
theorem FloodStep.spreads (hexpecting : Expecting hasher sampler B hash start)
    (hown : OwnHashes hasher B) (h : Afloat hasher sampler B start net)
    (hstep : FloodStep hasher sampler addr B listens hash net net') :
    Spreads (Asks listens start.node) (newsOf hasher sampler listens hash start net)
      (newsOf hasher sampler listens hash start net') := by
  have hspreadable : ∀ {i : ι} {b : Block} {fc' : ForkChoiceState} {r : Digest}, B b →
      (net.node i).forkChoice.containsBlock hash = false →
      (net.node i).forkChoice.insertBlock hasher sampler b = (.ok r, fc') →
      fc'.containsBlock hash = true → Spreadable hasher sampler hash start b := by
    intro i b fc' r hB hold hins hlearnt
    have hactive := h.quiescing.active i
    have hnew := (not_containsBlock_iff _).mp hold
    obtain ⟨n, hn⟩ := (containsBlock_iff _).mp hlearnt
    refine hexpecting.spreadable hown hactive.tree hactive.known (h.grows i).2 hB ?_ hnew hins
    by_contra hne
    rw [(look_insertBlock_none hins hash).mpr ⟨hnew, hne⟩] at hn
    cases hn
  cases hstep with
  | @mine st b i hmine =>
    refine act_spreads (NodeStep.grows hmine) (fun hold hlearnt => ?_) fun _ _ _ hmem _ _ =>
      .inl hmem
    rcases hmine.cases with ⟨b', _, _, hevent, hB, hmined⟩ | ⟨_, hevent, -⟩ |
      ⟨_, hevent, -⟩ | ⟨-, ⟨hevent, -⟩ | ⟨hevent, -⟩⟩ <;> cases hevent
    exact ⟨b, rfl, hspreadable hB hold (mineOnce_counts hmined).2.1 hlearnt⟩
  | deliver i address b hlisten hmem =>
    have hB : B b := h.quiescing.messages _ hmem
    refine act_spreads (handleBlock_announces hB _).grows (fun hold hlearnt => ?_)
      fun address' b' j hmem' hlisten' hspread => ?_
    · rw [handleBlock_state] at hlearnt
      rcases applyIncomingBlock_cases hasher sampler b .gossip (net.node i) with
        ⟨-, hr⟩ | ⟨e, -, hr⟩ | ⟨st', -, hins, -, -, hr⟩ <;> rw [hr] at hlearnt
      · rw [hold] at hlearnt
        cases hlearnt
      · rw [(countRejected_frame .gossip (net.node i)).2.1, hold] at hlearnt
        cases hlearnt
      · refine ⟨b, ?_, hspreadable hB hold hins hlearnt⟩
        rw [handleBlock, hr]
    · by_cases he : (address', b') = (address, b)
      · cases he
        rw [hlisten, Option.some.injEq] at hlisten'
        obtain ⟨ctx, score, hctx, hvalid⟩ := hspread.2 i
        refine .inr ⟨hlisten'.symm, ?_⟩
        have hlearns := handleBlock_learns hctx hvalid (h.grows i).1 (h.grows i).2
        rwa [hspread.1] at hlearns
      · exact .inl ((Multiset.mem_erase_of_ne he).mpr hmem')
  | broadcast i b reached hmem hsub hall =>
    refine ⟨fun _ hj => hj, fun _ hj => .inl hj, fun j hj => ?_, fun j hj => ?_⟩
    · obtain ⟨b', howed, hspread⟩ := hj
      by_cases he : (j, b') = (i, b)
      · -- the debt is paid: whoever listens at one of the peers has been sent the block
        cases he
        refine .inr fun k hk => .inl ?_
        obtain ⟨peer, hpeer, hlisten⟩ := hk
        have hreached := hall hspread.1 peer ((h.peers i).subset hpeer) (by rw [hlisten]; rfl)
        exact ⟨peer, b, Multiset.mem_add.mpr (.inr (Multiset.mem_coe.mpr
          (List.mem_map_of_mem hreached))), hlisten, hspread⟩
      · exact .inl ⟨b', (Multiset.mem_erase_of_ne he).mpr howed, hspread⟩
    · obtain ⟨peer, b', hsent, hlisten, hspread⟩ := hj
      exact .inl ⟨peer, b', Multiset.mem_add.mpr (.inl hsent), hlisten, hspread⟩
  | duplicate message hmem =>
    refine ⟨fun _ hj => hj, fun _ hj => .inl hj, fun _ hj => .inl hj, fun j hj => ?_⟩
    obtain ⟨peer, b, hsent, hlisten, hspread⟩ := hj
    exact .inl ⟨peer, b, Multiset.mem_cons_of_mem hsent, hlisten, hspread⟩
  | drop message hmem hlost =>
    refine ⟨fun _ hj => hj, fun _ hj => .inl hj, fun _ hj => .inl hj, fun j hj => ?_⟩
    obtain ⟨peer, b, hsent, hlisten, hspread⟩ := hj
    refine .inl ⟨peer, b, (Multiset.mem_erase_of_ne fun he => ?_).mpr hsent, hlisten, hspread⟩
    subst he
    rw [hlost hspread.1] at hlisten
    cases hlisten
  | inject message hB =>
    refine ⟨fun _ hj => hj, fun _ hj => .inl hj, fun _ hj => .inl hj, fun j hj => ?_⟩
    obtain ⟨peer, b, hsent, hlisten, hspread⟩ := hj
    exact .inl ⟨peer, b, Multiset.mem_cons_of_mem hsent, hlisten, hspread⟩
  | @alone event st i hstep _ _ hunsynced =>
    have hact : Spreads (Asks listens start.node)
        (newsOf hasher sampler listens hash start net)
        (newsOf hasher sampler listens hash start { net with
          node := Function.update net.node i st
          owed := net.owed + owing i none
          inFlight := net.inFlight }) := by
      refine act_spreads (NodeStep.grows hstep) (fun hold hlearnt => ?_) fun _ _ _ hmem _ _ =>
        .inl hmem
      rw [hunsynced hlearnt] at hold
      cases hold
    rwa [owing, add_zero] at hact

/-! ### Runs -/

/-- **A run carries the news**, from a start where nobody has it. -/
theorem flood_run (hexpecting : Expecting hasher sampler B hash start) (hown : OwnHashes hasher B)
    (hrun : Relation.ReflTransGen (FloodStep hasher sampler addr B listens hash) start net)
    (hfit : ∀ i, ScoresFit (net.node i).forkChoice) :
    Afloat hasher sampler B start net ∧
      Carried (Asks listens start.node) (newsOf hasher sampler listens hash start net) := by
  induction hrun with
  | refl =>
    refine ⟨⟨hexpecting.quiescing, fun i => ⟨Extends.refl _, rfl⟩, fun i => List.prefix_rfl⟩,
      fun i hi => ?_⟩
    replace hi : (start.node i).forkChoice.containsBlock hash = true := hi
    rw [hexpecting.unknown i] at hi
    cases hi
  | tail _ hstep ih =>
    have hgrows := MeshStep.grows hstep.mesh
    have hbefore := fun i => scoresFit_mono (hgrows i).1 (hgrows i).2 (hfit i)
    obtain ⟨hafloat, hcarried⟩ := ih hbefore
    exact ⟨hafloat.step hown hbefore hstep.mesh,
      hcarried.step (hstep.spreads hexpecting hown hafloat)⟩

/-- **Where messages have died out**, everyone has the block who could be reached. -/
theorem flood_everywhere (hexpecting : Expecting hasher sampler B hash start)
    (hown : OwnHashes hasher B)
    (hrun : Relation.ReflTransGen (FloodStep hasher sampler addr B listens hash) start net)
    (hfit : ∀ i, ScoresFit (net.node i).forkChoice)
    (howed : ∀ m ∈ net.owed, blockHash hasher m.2 ≠ hash)
    (hsent : ∀ m ∈ net.inFlight, blockHash hasher m.2 = hash → listens m.1 = none) {i j : ι}
    (hknows : (net.node i).forkChoice.containsBlock hash = true)
    (hreach : Relation.ReflTransGen (Asks listens start.node) i j) :
    (net.node j).forkChoice.containsBlock hash = true := by
  obtain ⟨-, hcarried⟩ := flood_run hexpecting hown hrun hfit
  refine hcarried.everywhere ?_ ?_ hknows hreach
  · refine Set.eq_empty_iff_forall_notMem.mpr fun k hk => ?_
    obtain ⟨block, hmem, hspread⟩ := hk
    exact howed _ hmem hspread.1
  · refine Set.eq_empty_iff_forall_notMem.mpr fun k hk => ?_
    obtain ⟨address, block, hmem, hlisten, hspread⟩ := hk
    rw [hsent _ hmem hspread.1] at hlisten
    cases hlisten

/-! ### The end of a flood -/

section

variable (hasher : HashPort) (sampler : SamplingPort) (listens : SocketAddr → Option ι)
  (hash : Digest)

/-- A message about the block of the hash is delivered, or a broadcast of it is made. -/
inductive Hop : Mesh ι → Mesh ι → Prop
  | deliver {net : Mesh ι} (i : ι) (address : SocketAddr) (block : Block) :
      blockHash hasher block = hash → listens address = some i → (address, block) ∈ net.inFlight →
      Hop net { net with
        node := Function.update net.node i (handleBlock hasher sampler block (net.node i)).state
        owed := net.owed + owing i (handleBlock hasher sampler block (net.node i)).relayed
        inFlight := net.inFlight.erase (address, block) }
  | broadcast {net : Mesh ι} (i : ι) (block : Block) (reached : List SocketAddr) :
      blockHash hasher block = hash → (i, block) ∈ net.owed →
      reached.Sublist (net.node i).peers →
      (∀ peer ∈ (net.node i).peers, (listens peer).isSome → peer ∈ reached) →
      Hop net { net with
        owed := net.owed.erase (i, block)
        inFlight := net.inFlight + (reached.map fun peer => (peer, block) : List _)
        calls := net.calls + {(i, block)}
        sent := net.sent + Multiset.replicate reached.length (i, block) }

inductive Hops (net : Mesh ι) : ℕ → Mesh ι → Prop
  | none : Hops net 0 net
  | next {n : ℕ} {net' net'' : Mesh ι} : Hops net n net' →
      Hop hasher sampler listens hash net' net'' → Hops net (n + 1) net''

/-- What a node may still do about the block: take it in, and call its peers. -/
def pending (net : Mesh ι) (i : ι) : ℕ :=
  (if (net.node i).forkChoice.containsBlock hash then 0 else (net.node i).peers.length + 2) +
    net.owed.countP (About hasher i hash) * ((net.node i).peers.length + 1)

/-- A bound on what is still to come about the block. -/
def unrest [Fintype ι] (net : Mesh ι) : ℕ :=
  ∑ i, pending hasher hash net i +
    net.inFlight.countP fun message => blockHash hasher message.2 = hash

end

lemma Hop.flood (h : Hop hasher sampler listens hash net net') :
    FloodStep hasher sampler addr B listens hash net net' := by
  cases h with
  | deliver i address block _ hlisten hmem => exact .deliver i address block hlisten hmem
  | broadcast i block reached _ hmem hsub hall =>
    exact .broadcast i block reached hmem hsub fun _ => hall

lemma Hops.flood {n : ℕ} (h : Hops hasher sampler listens hash net n net') :
    Relation.ReflTransGen (FloodStep hasher sampler addr B listens hash) net net' := by
  induction h with
  | none => exact .refl
  | next _ hop ih => exact ih.tail hop.flood

omit [DecidableEq ι] in
lemma handleBlock_peers (block : Block) (st : NodeState) :
    (handleBlock hasher sampler block st).state.peers = st.peers := by
  rw [handleBlock_state]
  have hbesides : besides (applyIncomingBlock hasher sampler block .gossip st).2 = besides st :=
    applyIncomingBlock_besides block .gossip st
  have hpeers : (besides (applyIncomingBlock hasher sampler block .gossip st).2).peers =
    (besides st).peers := congrArg NodeState.peers hbesides
  exact hpeers

/-- A delivery leaves no node with more to do. -/
lemma pending_deliver (hB : B block) (i j : ι)
    {inFlight : Multiset (SocketAddr × Block)} :
    pending hasher hash { net with
      node := Function.update net.node i (handleBlock hasher sampler block (net.node i)).state
      owed := net.owed + owing i (handleBlock hasher sampler block (net.node i)).relayed
      inFlight := inFlight } j ≤ pending hasher hash net j := by
  have hannounces : Announces hasher B (net.node i)
      (handleBlock hasher sampler block (net.node i)).relayed
      (handleBlock hasher sampler block (net.node i)).state := handleBlock_announces hB _
  have hpeers : (handleBlock hasher sampler block (net.node i)).state.peers =
    (net.node i).peers := handleBlock_peers block _
  obtain ⟨hle, hsome⟩ := countP_owing hasher i j hash
    (handleBlock hasher sampler block (net.node i)).relayed
  simp only [pending, Multiset.countP_add]
  by_cases hzero : (owing i (handleBlock hasher sampler block (net.node i)).relayed).countP
      (About hasher j hash) = 0
  · rw [hzero]
    refine Nat.add_le_add ?_ (le_of_eq ?_)
    · by_cases he : j = i
      · subst he
        rw [Function.update_self, hpeers]
        split
        · exact Nat.zero_le _
        · next hunknown =>
          rw [if_neg fun hknown => hunknown (hannounces.grows hash hknown)]
      · rw [Function.update_of_ne he]
    · by_cases he : j = i
      · subst he
        rw [Function.update_self, hpeers, Nat.add_zero]
      · rw [Function.update_of_ne he, Nat.add_zero]
  · -- the node has taken the block in, and owes it now instead
    obtain ⟨rfl, b, hrelayed, rfl⟩ := hsome hzero
    obtain ⟨-, hnew, hknown⟩ := hannounces.new b hrelayed
    rw [Function.update_self, hpeers, if_pos hknown,
      if_neg (Bool.eq_false_iff.mp ((not_containsBlock_iff _).mpr hnew)), Nat.add_mul]
    have hone := Nat.mul_le_mul_right ((net.node j).peers.length + 1) hle
    omega

/-- **A hop brings the end of the flood nearer.** -/
theorem Hop.unrest_lt [Fintype ι] (h : Quiescing hasher sampler B net)
    (hop : Hop hasher sampler listens hash net net') :
    unrest hasher hash net' < unrest hasher hash net := by
  cases hop with
  | deliver i address block hhash _ hmem =>
    have hB : B block := h.messages _ hmem
    have hdone : ∀ j ∈ Finset.univ, pending hasher hash { net with
        node := Function.update net.node i (handleBlock hasher sampler block (net.node i)).state
        owed := net.owed + owing i (handleBlock hasher sampler block (net.node i)).relayed
        inFlight := net.inFlight.erase (address, block) } j ≤ pending hasher hash net j :=
      fun j _ => pending_deliver hB i j
    have hsum := Finset.sum_le_sum hdone
    have hcount := Multiset.countP_cons_of_pos (p := fun m : SocketAddr × Block =>
      blockHash hasher m.2 = hash) (s := net.inFlight.erase (address, block))
      (a := (address, block)) hhash
    rw [Multiset.cons_erase hmem] at hcount
    simp only [unrest]
    omega
  | broadcast i block reached hhash hmem hsub _ =>
    have hpaid : ∀ j ∈ Finset.univ, pending hasher hash { net with
          owed := net.owed.erase (i, block)
          inFlight := net.inFlight + (reached.map fun peer => (peer, block) : List _)
          calls := net.calls + {(i, block)}
          sent := net.sent + Multiset.replicate reached.length (i, block) } j +
        (if j = i then (net.node i).peers.length + 1 else 0) ≤ pending hasher hash net j := by
      intro j _
      simp only [pending]
      by_cases he : j = i
      · subst he
        have hcount := Multiset.countP_cons_of_pos (p := About hasher j hash)
          (s := net.owed.erase (j, block)) (a := (j, block)) ⟨rfl, hhash⟩
        rw [Multiset.cons_erase hmem] at hcount
        rw [if_pos rfl, hcount, Nat.add_mul]
        omega
      · rw [if_neg he, Nat.add_zero]
        exact Nat.add_le_add_left (Nat.mul_le_mul_right _
          (Multiset.countP_le_of_le _ (Multiset.erase_le _ _))) _
    have hsum := Finset.sum_le_sum hpaid
    rw [Finset.sum_add_distrib, Finset.sum_ite_eq' Finset.univ i, if_pos (Finset.mem_univ i)]
      at hsum
    have hcalled : ((reached.map fun peer => (peer, block) : List (SocketAddr × Block)) :
        Multiset (SocketAddr × Block)).countP (fun m => blockHash hasher m.2 = hash) ≤
        (net.node i).peers.length := by
      calc _ ≤ Multiset.card ((reached.map fun peer => (peer, block) :
            List (SocketAddr × Block)) : Multiset (SocketAddr × Block)) :=
            Multiset.countP_le_card _ _
        _ = reached.length := by rw [Multiset.coe_card, List.length_map]
        _ ≤ (net.node i).peers.length := hsub.length_le
    simp only [unrest, Multiset.countP_add]
    omega

lemma Hops.unrest_le [Fintype ι] {n : ℕ} (hown : OwnHashes hasher B)
    (h : Quiescing hasher sampler B net) (hops : Hops hasher sampler listens hash net n net')
    (hfit : ∀ i, ScoresFit (net'.node i).forkChoice) (addr : AddrText) :
    Quiescing hasher sampler B net' ∧ n + unrest hasher hash net' ≤ unrest hasher hash net := by
  induction hops with
  | none => exact ⟨h, (Nat.zero_add _).le⟩
  | @next n net' net'' _ hop ih =>
    have hmesh : MeshStep hasher sampler addr B net' net'' := hop.flood.mesh
    have hgrows := MeshStep.grows hmesh
    have hbefore := fun i => scoresFit_mono (hgrows i).1 (hgrows i).2 (hfit i)
    obtain ⟨hquiescing, hle⟩ := ih hbefore
    have hlt := hop.unrest_lt hquiescing
    exact ⟨hquiescing.step hown hbefore hmesh, by omega⟩

lemma flood_fits
    (hrun : Relation.ReflTransGen (FloodStep hasher sampler addr B listens hash) net net')
    (hfit : ∀ i, ScoresFit (net'.node i).forkChoice) : ∀ i, ScoresFit (net.node i).forkChoice := by
  induction hrun with
  | refl => exact hfit
  | tail _ hstep ih =>
    have hgrows := MeshStep.grows hstep.mesh
    exact ih fun i => scoresFit_mono (hgrows i).1 (hgrows i).2 (hfit i)

/-- **Gossip floods the network.** A block comes up in a network whose nodes all know the block
below it, and messages about it get through. Then hops of messages about it are bounded by what
there is to do; and where no more are possible, whoever can be reached from a node that has the
block, along the peers there were at the start, has it too. -/
theorem gossip_floods [Fintype ι] (hasher : HashPort) (sampler : SamplingPort) (addr : AddrText)
    (B : Block → Prop) (hown : OwnHashes hasher B) (listens : SocketAddr → Option ι)
    (hash : Digest) (begin start net net' : Mesh ι)
    (hbegin : MeshStart hasher sampler addr B begin)
    (hbefore : Relation.ReflTransGen (MeshStep hasher sampler addr B) begin start)
    (hconfig : ∀ i j, (start.node i).forkChoice.config = (start.node j).forkChoice.config)
    (hunknown : ∀ i, (start.node i).forkChoice.containsBlock hash = false)
    (hparent : ∀ block, B block → blockHash hasher block = hash → ∀ i,
      block.header.previousBlock = Digest.zero ∨
        (start.node i).forkChoice.containsBlock block.header.previousBlock = true)
    (hrun : Relation.ReflTransGen (FloodStep hasher sampler addr B listens hash) start net)
    {n : ℕ} (hhops : Hops hasher sampler listens hash net n net')
    (hfit : ∀ i, ScoresFit (net'.node i).forkChoice) :
    n + unrest hasher hash net' ≤ unrest hasher hash net ∧
      ((∀ net'', ¬ Hop hasher sampler listens hash net' net'') → ∀ i j,
        (net'.node i).forkChoice.containsBlock hash = true →
        Relation.ReflTransGen (Asks listens start.node) i j →
        (net'.node j).forkChoice.containsBlock hash = true) := by
  have hafter : Relation.ReflTransGen (FloodStep hasher sampler addr B listens hash) net net' :=
    hhops.flood
  have hflood := hrun.trans hafter
  have hstart : Quiescing hasher sampler B start :=
    (MeshStart.quiescing hbegin).run hown hbefore (flood_fits hflood hfit)
  have hexpecting : Expecting hasher sampler B hash start := ⟨hstart, hconfig, hunknown, hparent⟩
  obtain ⟨hafloat, -⟩ := flood_run hexpecting hown hrun (flood_fits hafter hfit)
  refine ⟨(hhops.unrest_le hown hafloat.quiescing hfit addr).2, fun hstuck i j hknows hreach => ?_⟩
  refine flood_everywhere hexpecting hown hflood hfit (fun m hm hhash => ?_) (fun m hm hhash => ?_)
    hknows hreach
  · exact hstuck _ (.broadcast m.1 m.2 _ hhash hm (List.Sublist.refl _) fun _ hpeer _ => hpeer)
  · by_contra hsome
    obtain ⟨k, hk⟩ := Option.ne_none_iff_exists'.mp hsome
    exact hstuck _ (.deliver k m.1 m.2 hhash hk hm)

/-! Two nodes, of which one knows the other, and a block that is sent to the first. -/

def doorstep : SocketAddr := .v4 0x7f000001 9555

def doors (address : SocketAddr) : Option Bool :=
  if address = doorstep then some true else if address = neighbour then some false else none

def waiting : Mesh Bool := { pair with node := Function.update pair.node true met }

def posted : Mesh Bool := { waiting with inFlight := {(doorstep, rumour)} }

/-- The other node once it has been sent the block. -/
def heard : NodeState :=
  (handleBlock toyHash deterministicSampler rumour (freshNode ⟨1, 1, 0⟩ none)).state

lemma heard_relays :
    (handleBlock toyHash deterministicSampler rumour (freshNode ⟨1, 1, 0⟩ none)).relayed =
        some rumour ∧
      heard.forkChoice.knownBlockCount *
        configuredBlockWorkScore heard.forkChoice.config.difficultyZeroBits < 2 ^ 128 ∧
      heard.peers = [] ∧ told.forkChoice.containsBlock (blockHash toyHash rumour) = true := by
  decide +kernel

/-- The pair when all is done. -/
def informed : Mesh Bool :=
  ⟨Function.update (Function.update waiting.node true told) false heard, 0, 0,
    {(true, rumour)} + {(false, rumour)}, {(true, rumour)}⟩

lemma posted_hops : Hops toyHash deterministicSampler doors (blockHash toyHash rumour) posted 4
    informed := by
  let net₁ : Mesh Bool := { waiting with
    node := Function.update waiting.node true told, owed := {(true, rumour)} }
  let net₂ : Mesh Bool := { net₁ with
    owed := 0, inFlight := {(neighbour, rumour)}, calls := {(true, rumour)}
    sent := {(true, rumour)} }
  let net₃ : Mesh Bool := { net₂ with
    node := Function.update net₂.node false heard, owed := {(false, rumour)}, inFlight := 0 }
  have hfirst : Hop toyHash deterministicSampler doors (blockHash toyHash rumour) posted net₁ := by
    have hself : posted.node true = met := by simp [posted, waiting]
    have hstep : Hop toyHash deterministicSampler doors (blockHash toyHash rumour) posted _ :=
      .deliver true doorstep rumour rfl rfl (Multiset.mem_singleton_self _)
    rw [hself, met_relays.1] at hstep
    simpa [net₁, posted, waiting, pair, owing, told] using hstep
  have hsecond : Hop toyHash deterministicSampler doors (blockHash toyHash rumour) net₁ net₂ := by
    have hpeers : (net₁.node true).peers = [neighbour] := by simp [net₁, met_relays.2.2.1]
    have hstep : Hop toyHash deterministicSampler doors (blockHash toyHash rumour) net₁ _ :=
      .broadcast true rumour [neighbour] rfl (Multiset.mem_singleton_self _) (by rw [hpeers])
        fun peer hpeer _ => by rwa [hpeers] at hpeer
    simpa [net₂, net₁, waiting, pair] using hstep
  have hthird : Hop toyHash deterministicSampler doors (blockHash toyHash rumour) net₂ net₃ := by
    have hself : net₂.node false = freshNode ⟨1, 1, 0⟩ none := by simp [net₂, net₁, waiting, pair]
    have hstep : Hop toyHash deterministicSampler doors (blockHash toyHash rumour) net₂ _ :=
      .deliver false neighbour rumour rfl (by decide) (Multiset.mem_singleton_self _)
    rw [hself, heard_relays.1] at hstep
    simpa [net₃, net₂, owing, heard] using hstep
  have hfourth : Hop toyHash deterministicSampler doors (blockHash toyHash rumour) net₃
      informed := by
    have hpeers : (net₃.node false).peers = [] := by simp [net₃, heard_relays.2.2.1]
    have hstep : Hop toyHash deterministicSampler doors (blockHash toyHash rumour) net₃ _ :=
      .broadcast false rumour [] rfl (Multiset.mem_singleton_self _) (by rw [hpeers])
        fun peer hpeer _ => by rwa [hpeers] at hpeer
    simpa [informed, net₃, net₂, net₁, waiting, pair] using hstep
  exact .next (.next (.next (.next .none hfirst) hsecond) hthird) hfourth

theorem gossip_floods_pair :
    4 + unrest toyHash (blockHash toyHash rumour) informed ≤
        unrest toyHash (blockHash toyHash rumour) posted ∧
      (informed.node false).forkChoice.containsBlock (blockHash toyHash rumour) = true := by
  let noAddr : AddrText := ⟨fun _ => [], fun _ => none⟩
  have hown : OwnHashes toyHash (· = rumour) :=
    ⟨fun b hb => by subst hb; exact met_relays.2.2.2, fun b b' hb hb' _ => by rw [hb, hb']⟩
  have hmet : MeshStep toyHash deterministicSampler noAddr (· = rumour) pair waiting :=
    .alone true (.addPeer neighbour) (by simp) rfl
  have hposted : FloodStep toyHash deterministicSampler noAddr (· = rumour) doors
      (blockHash toyHash rumour) waiting posted := .inject (doorstep, rumour) rfl
  have hstart : Start toyHash deterministicSampler noAddr (· = rumour)
      (freshNode ⟨1, 1, 0⟩ none) := freshNode_start _
  have hheard : Relation.ReflTransGen (Step toyHash deterministicSampler (· = rumour))
      (freshNode ⟨1, 1, 0⟩ none) heard := by
    refine .single ?_
    rw [heard, handleBlock_state]
    exact .incoming rumour .gossip rfl
  have hfalse : informed.node false = heard := by simp [informed]
  have htrue : informed.node true = told := by simp [informed]
  have hfit : ∀ i, ScoresFit (informed.node i).forkChoice := by
    intro i
    cases i with
    | false =>
      rw [hfalse]
      exact scoresFit_of_count ((Start.active hstart).run hown.nonzero hheard).tree
        heard_relays.2.1
    | true =>
      rw [htrue]
      exact scoresFit_of_count ((Start.active hstart).run hown.nonzero told_steps).tree
        met_relays.2.1
  obtain ⟨hbound, heverywhere⟩ := gossip_floods toyHash deterministicSampler noAddr (· = rumour)
    hown doors (blockHash toyHash rumour) pair waiting posted informed
    ⟨fun _ => freshNode_started, rfl, rfl, rfl, rfl⟩ (.single hmet)
    (by decide +kernel) (by decide +kernel) (fun b hb _ i => .inl (by subst hb; rfl))
    (.single hposted) posted_hops hfit
  refine ⟨hbound, heverywhere (fun net hop => ?_) true false ?_ (.single ?_)⟩
  · cases hop with
    | deliver i address block _ _ hmem => exact absurd hmem (Multiset.notMem_zero _)
    | broadcast i block reached _ hmem _ _ => exact absurd hmem (Multiset.notMem_zero _)
  · rw [htrue]
    exact heard_relays.2.2.2
  · refine ⟨neighbour, ?_, by decide⟩
    have hself : waiting.node true = met := by simp [waiting]
    rw [hself]
    decide +kernel

end Chesscoin.Flooding

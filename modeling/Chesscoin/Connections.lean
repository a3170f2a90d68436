import Chesscoin.Lib.Permits
import Chesscoin.Inbound

/-!
Connections that come in.

The node's loop takes the connections that wait, one after the other. For each it reserves a
permit, by reading the count of active connections and exchanging it for the next one, until that
succeeds or the count has reached the limit; a connection that got no permit is dropped and
counted, one that got a permit goes to a thread of its own, which reads it and then gives the
permit back. The threads run beside the loop and beside everything else the node does.
-/

namespace Chesscoin.Connections

open Chesscoin.Lib.Permits Chesscoin.Domain Chesscoin.Simulator Chesscoin.ForkChoice Chesscoin.Wire
  Chesscoin.Config Chesscoin.Runtime Chesscoin.Runs Chesscoin.Serving Chesscoin.Sync
  Chesscoin.Operations Chesscoin.PeerSet Chesscoin.Inbound Chesscoin.Adapters

/-! ### The loop and the threads -/

/-- Where the loop stands. -/
inductive Stage
  | listening
  /-- At the beginning of an attempt to reserve a permit, with the limit. -/
  | reserving (stream : Stream) (limit : ℕ)
  /-- The count has been read. -/
  | exchanging (stream : Stream) (limit current : ℕ)
  | spawning (stream : Stream)
  | dropping

/-- Where the thread of a connection stands. It holds its permit until it has finished. -/
inductive Handler
  | reading (stream : Stream)
  | handled
  | finished

def Handler.isFinished : Handler → Bool
  | .finished => true
  | _ => false

/-- Two to the number of bits of a machine word. -/
def wordSize : ℕ := 2 ^ 64

/-- The node with its count of active connections, the loop and the threads, and what has happened
so far: connections accepted and handed on, attempts that failed, permits given back. -/
structure Gate where
  node : NodeState
  active : ℕ
  stage : Stage
  handlers : List Handler
  accepted : ℕ
  served : ℕ
  retries : ℕ
  released : ℕ

/-- A node whose loop is about to begin. -/
def opened (node : NodeState) : Gate := ⟨node, 0, .listening, [], 0, 0, 0, 0⟩

/-- The last element takes the place of the one removed. -/
def swapRemove {α : Type} (index : ℕ) (l : List α) : List α :=
  match l.getLast? with
  | none => l
  | some last => (l.set index last).dropLast

lemma length_swapRemove {α : Type} {index : ℕ} {l : List α} (h : index < l.length) :
    (swapRemove index l).length + 1 = l.length := by
  unfold swapRemove
  split
  · next hnone =>
    rw [List.getLast?_eq_none_iff] at hnone
    subst hnone
    exact absurd h (Nat.not_lt_zero _)
  · rw [List.length_dropLast, List.length_set]
    omega

/-- Threads that have finished are joined, from `index` on. -/
def joinFinishedInboundHandlers (index : ℕ) (handlers : List Handler) : List Handler :=
  match h : handlers[index]? with
  | none => handlers
  | some handler =>
    if handler.isFinished then joinFinishedInboundHandlers index (swapRemove index handlers)
    else joinFinishedInboundHandlers (index + 1) handlers
termination_by handlers.length - index
decreasing_by
  · have hlt := (List.getElem?_eq_some_iff.mp h).1
    have hlen := length_swapRemove hlt
    omega
  · have hlt := (List.getElem?_eq_some_iff.mp h).1
    omega

section

variable (hasher : HashPort) (sampler : SamplingPort) (addr : AddrText) (B : Block → Prop)

inductive GateStep : Gate → Gate → Prop
  | accept {g : Gate} (stream : Stream) : g.stage = .listening →
      GateStep g { g with
        stage := .reserving stream g.node.network.maxInboundConnections
        accepted := g.accepted + 1 }
  | load {g : Gate} {stream : Stream} {limit : ℕ} : g.stage = .reserving stream limit →
      g.active < limit → GateStep g { g with stage := .exchanging stream limit g.active }
  | refuse {g : Gate} {stream : Stream} {limit : ℕ} : g.stage = .reserving stream limit →
      limit ≤ g.active → GateStep g { g with stage := .dropping }
  | exchange {g : Gate} {stream : Stream} {limit current : ℕ} :
      g.stage = .exchanging stream limit current → g.active = current →
      GateStep g { g with active := (current + 1) % wordSize, stage := .spawning stream }
  | retry {g : Gate} {stream : Stream} {limit current : ℕ} :
      g.stage = .exchanging stream limit current → g.active ≠ current →
      GateStep g { g with stage := .reserving stream limit, retries := g.retries + 1 }
  | spawn {g : Gate} {stream : Stream} : g.stage = .spawning stream →
      GateStep g { g with
        stage := .listening
        handlers := g.handlers ++ [.reading stream]
        served := g.served + 1 }
  | drop {g : Gate} : g.stage = .dropping →
      GateStep g { g with stage := .listening, node := dropInboundConnection g.node }
  | handle {g : Gate} {stream : Stream} (i : ℕ) (written : Bool) :
      g.handlers[i]? = some (.reading stream) →
      (∀ block r, streamEvent hasher sampler addr stream g.node = .gossip block r → B block) →
      GateStep g { g with
        node := (handleStream hasher sampler addr stream written g.node).state
        handlers := g.handlers.set i .handled }
  | release {g : Gate} (i : ℕ) : g.handlers[i]? = some .handled →
      GateStep g { g with
        active := (g.active + (wordSize - 1)) % wordSize
        handlers := g.handlers.set i .finished
        released := g.released + 1 }
  | join {g : Gate} : g.stage = .listening →
      GateStep g { g with handlers := joinFinishedInboundHandlers 0 g.handlers }
  /-- Whatever else the node does: it mines, syncs, learns of peers, counts its traffic. -/
  | other {g : Gate} {event : Event} {node : NodeState} :
      NodeStep hasher sampler addr B g.node event node →
      node.droppedInboundConnections = g.node.droppedInboundConnections →
      GateStep g { g with node }

end

variable {hasher : HashPort} {sampler : SamplingPort} {addr : AddrText} {B : Block → Prop}
  {st st' : NodeState} {g g' : Gate}

/-! ### Joining -/

/-- Removing from a place in the middle leaves what stands before it, and what stands after it in
another order. -/
lemma swapRemove_append {α : Type} (before : List α) (x : α) (after : List α) :
    ∃ after', swapRemove before.length (before ++ x :: after) = before ++ after' ∧
      after'.Perm after := by
  rcases List.eq_nil_or_concat after with rfl | ⟨init, last, rfl⟩
  · refine ⟨[], ?_, .refl _⟩
    simp [swapRemove]
  · refine ⟨last :: init, ?_, ?_⟩
    · have hlast : (before ++ x :: (init ++ [last])).getLast? = some last := by
        rw [← List.cons_append, ← List.append_assoc, List.getLast?_concat]
      simp only [swapRemove, List.concat_eq_append, hlast]
      rw [List.set_append_right _ _ le_rfl, Nat.sub_self, List.set_cons_zero, ← List.cons_append,
        ← List.append_assoc, List.dropLast_concat]
    · have hcomm : ([last] ++ init).Perm (init ++ [last]) := List.perm_append_comm
      rw [List.concat_eq_append]
      exact hcomm

def Handler.holds (handler : Handler) : Bool := !handler.isFinished

/-- **Joining loses no thread that still runs.** -/
theorem joinFinishedInboundHandlers_perm (before after : List Handler) :
    (joinFinishedInboundHandlers before.length (before ++ after)).Perm
      (before ++ after.filter Handler.holds) := by
  induction hn : after.length generalizing before after with
  | zero =>
    rw [List.length_eq_zero_iff] at hn
    subst hn
    have hget : (before ++ [])[before.length]? = none := by simp
    rw [joinFinishedInboundHandlers, hget]
    simp
  | succ n ih =>
    obtain _ | ⟨handler, after⟩ := after
    · cases hn
    have hlen : after.length = n := Nat.succ.inj hn
    have hget : (before ++ handler :: after)[before.length]? = some handler := by simp
    rw [joinFinishedInboundHandlers, hget]
    simp only
    split
    · next hfinished =>
      obtain ⟨after', hswap, hperm⟩ := swapRemove_append before handler after
      rw [hswap, List.filter_cons_of_neg (by simp [Handler.holds, hfinished])]
      exact (ih before after' (hperm.length_eq.trans hlen)).trans
        ((hperm.filter _).append_left before)
    · next hfinished =>
      have hnext := ih (before ++ [handler]) after hlen
      rw [List.length_append, List.length_singleton, List.append_assoc, List.append_assoc] at hnext
      rw [List.filter_cons_of_pos (by simp [Handler.holds, hfinished])]
      exact hnext

/-! ### Permits -/

/-- The threads that have not given their permit back. -/
def Gate.running (g : Gate) : ℕ := g.handlers.countP Handler.holds

/-- The value the loop has read, while it tries to exchange it. -/
def Stage.seen : Stage → Multiset ℕ
  | .exchanging _ _ current => {current}
  | _ => 0

/-- Permits that no thread has taken over yet. -/
def Stage.granted : Stage → ℕ
  | .spawning _ => 1
  | _ => 0

/-- Connections that have been accepted and neither handed on nor dropped. -/
def Stage.pending : Stage → ℕ
  | .listening => 0
  | _ => 1

/-- How far the count has fallen below the value that was read. -/
def Stage.fallen (active : ℕ) : Stage → ℕ
  | .exchanging _ _ current => current - active
  | _ => 0

/-- The limit an attempt compares with is the node's, and what it has read was not too small. -/
def Stage.Fits (limit active : ℕ) : Stage → Prop
  | .reserving _ limit' => limit' = limit
  | .exchanging _ limit' current => limit' = limit ∧ active ≤ current
  | _ => True

def Gate.limit (g : Gate) : ℕ := g.node.network.maxInboundConnections

/-- The gate as a count of permits. -/
def Gate.tally (g : Gate) : Tally := ⟨g.active, g.stage.seen, g.running + g.stage.granted⟩

lemma running_join (g : Gate) :
    (joinFinishedInboundHandlers 0 g.handlers).countP Handler.holds = g.running := by
  have hperm := joinFinishedInboundHandlers_perm [] g.handlers
  rw [List.length_nil, List.nil_append, List.nil_append] at hperm
  rw [hperm.countP_eq, Gate.running, List.countP_filter]
  simp only [Bool.and_self]

lemma running_set {i : ℕ} {old : Handler} (new : Handler) (h : g.handlers[i]? = some old) :
    (g.handlers.set i new).countP Handler.holds + old.holds.toNat =
      g.running + new.holds.toNat := by
  obtain ⟨hlt, rfl⟩ := List.getElem?_eq_some_iff.mp h
  have hpos : g.handlers[i].holds = true → 0 < g.handlers.countP Handler.holds := fun hholds =>
    List.countP_pos_iff.mpr ⟨_, List.getElem_mem hlt, hholds⟩
  rw [List.countP_set hlt, Gate.running]
  cases hold : g.handlers[i].holds with
  | false =>
    simp only [Bool.false_eq_true, if_false]
    cases new.holds <;> rfl
  | true =>
    have hcount := hpos hold
    simp only [if_true]
    cases new.holds <;> simp only [Bool.false_eq_true, if_false, if_true, Bool.toNat_false,
      Bool.toNat_true] <;> omega

lemma running_handled {i : ℕ} {stream : Stream} (h : g.handlers[i]? = some (.reading stream)) :
    (g.handlers.set i .handled).countP Handler.holds = g.running := by
  have hset := running_set .handled h
  exact Nat.add_right_cancel hset

lemma running_finished {i : ℕ} (h : g.handlers[i]? = some .handled) :
    (g.handlers.set i .finished).countP Handler.holds + 1 = g.running :=
  running_set .finished h

/-! ### What the node does beside -/

/-- What the accounts of connections depend on. -/
structure Steady (st st' : NodeState) : Prop where
  network : st'.network = st.network
  dropped : st'.droppedInboundConnections = st.droppedInboundConnections

lemma Steady.of_identity (hidentity : PeerSet.identity st' = PeerSet.identity st)
    (hdropped : st'.droppedInboundConnections = st.droppedInboundConnections) : Steady st st' :=
  ⟨congrArg (fun identity => identity.2.2) hidentity, hdropped⟩

lemma handleStream_steady (stream : Stream) (written : Bool) (st : NodeState) :
    Steady st (handleStream hasher sampler addr stream written st).state := by
  refine .of_identity (handleStream_admits stream written st).identity ?_
  rcases handleStream_effect hasher sampler addr stream written st with
    ⟨b, -, -, st', happly, heq⟩ | ⟨_, _, _, n, hstate⟩ |
      ⟨_, _, _, _, _, ⟨_, hstate⟩ | ⟨_, hstate⟩⟩ | ⟨_, _, hdiagnosed⟩
  · have hbesides : besides (applyIncomingBlock hasher sampler b .gossip st).2 = besides st :=
      applyIncomingBlock_besides b .gossip st
    rw [happly] at hbesides
    have hdropped : (besides st').droppedInboundConnections =
        (besides st).droppedInboundConnections :=
      congrArg NodeState.droppedInboundConnections hbesides
    rw [heq]
    exact hdropped
  · rw [hstate]
  · rw [hstate]
  · rw [hstate]
  · rw [hdiagnosed]

lemma nodeStep_network {event : Event} (h : NodeStep hasher sampler addr B st event st') :
    st'.network = st.network := by
  have hpeers : ∃ offers, PeerStep hasher sampler addr st offers st' := by
    cases h with
    | mine _ _ hmine _ => exact ⟨_, .mine _ _ hmine⟩
    | stream stream written _ => exact ⟨_, .stream stream written⟩
    | answer answer _ => exact ⟨_, .answer answer⟩
    | addPeer peer => exact ⟨_, .addPeer peer⟩
    | countSync result => exact ⟨_, .countSync result⟩
    | recordBroadcast sent failed => exact ⟨_, .recordBroadcast sent failed⟩
    | recordHelloAnnouncements sent failed => exact ⟨_, .recordHelloAnnouncements sent failed⟩
    | dropInboundConnection => exact ⟨_, .dropInboundConnection⟩
    | refuseMiner => exact ⟨_, .refuseMiner⟩
  obtain ⟨offers, hpeer⟩ := hpeers
  exact congrArg (fun identity => identity.2.2) hpeer.admits.identity

/-! ### Accounts -/

/-- **The gate takes permits and gives them back**, one at a time, or leaves them alone. -/
theorem GateStep.tally (hfits : g.stage.Fits g.limit g.active)
    (h : GateStep hasher sampler addr B g g') :
    g'.tally = g.tally ∨ Lib.Permits.Step wordSize g.limit g.tally g'.tally := by
  unfold Gate.tally Gate.running
  cases h with
  | accept stream hstage =>
    left
    simp only [hstage, Stage.seen, Stage.granted]
  | load hstage hlt =>
    right
    rw [hstage] at hfits ⊢
    exact .load (hlt.trans_eq hfits)
  | refuse hstage _ =>
    left
    simp only [hstage, Stage.seen, Stage.granted]
  | exchange hstage hcurrent =>
    right
    rw [hstage]
    have hstep : Lib.Permits.Step wordSize g.limit ⟨g.active, {g.active}, g.running⟩ _ :=
      .exchange (Multiset.mem_singleton_self _) rfl
    rw [Multiset.erase_singleton] at hstep
    subst hcurrent
    exact hstep
  | retry hstage hne =>
    right
    rw [hstage]
    have hstep : Lib.Permits.Step wordSize g.limit ⟨g.active, {_}, g.running⟩ _ :=
      .retry (Multiset.mem_singleton_self _) hne
    rw [Multiset.erase_singleton] at hstep
    exact hstep
  | spawn hstage =>
    left
    simp only [hstage, List.countP_append]
    rfl
  | drop hstage =>
    left
    simp only [hstage, Stage.seen, Stage.granted]
  | handle i _ hget _ =>
    left
    rw [running_handled hget, Gate.running]
  | release i hget =>
    right
    have hrunning := running_finished hget
    have hstep : Lib.Permits.Step wordSize g.limit g.tally _ :=
      .release (by unfold Gate.tally; simp only; omega)
    have hless : (g.handlers.set i .finished).countP Handler.holds + g.stage.granted =
        g.running + g.stage.granted - 1 := by omega
    rw [hless]
    exact hstep
  | join hstage =>
    left
    rw [running_join, Gate.running]
  | other _ _ => exact .inl rfl

/-- What holds between the loop and the threads, in a node that began as `node`. -/
structure Accounts (node : NodeState) (g : Gate) : Prop where
  network : g.node.network = node.network
  fits : g.stage.Fits g.limit g.active
  sound : Sound g.limit g.tally
  arrived : g.accepted + node.droppedInboundConnections =
    g.served + g.node.droppedInboundConnections + g.stage.pending
  handed : g.served = g.released + g.running
  attempts : g.retries + g.stage.fallen g.active ≤ g.released

lemma accounts_opened (node : NodeState) : Accounts node (opened node) where
  network := rfl
  fits := trivial
  sound := .fresh _
  arrived := rfl
  handed := rfl
  attempts := le_refl 0

/-- The count is the number of permits that are out. -/
lemma Accounts.active {node : NodeState} (h : Accounts node g) :
    g.active = g.running + g.stage.granted := h.sound.counted

lemma GateStep.network (h : GateStep hasher sampler addr B g g') :
    g'.node.network = g.node.network := by
  cases h with
  | handle i _ _ _ => exact (handleStream_steady _ _ _).network
  | other hstep _ => exact nodeStep_network hstep
  | _ => rfl

/-- A permit that is given back lowers the count by one. -/
lemma Accounts.lowered {node : NodeState} (hword : g.limit < wordSize) (h : Accounts node g)
    (hpos : 0 < g.running) : (g.active + (wordSize - 1)) % wordSize + 1 = g.active := by
  have hactive := h.active
  have hcount := h.sound.counted
  have hbound := h.sound.bounded
  simp only [Gate.tally] at hcount hbound
  rw [show g.active + (wordSize - 1) = g.active - 1 + wordSize by omega, Nat.add_mod_right,
    Nat.mod_eq_of_lt (by omega)]
  omega

/-- A connection that has been accepted is handed on or dropped, once. -/
lemma GateStep.arrived (h : GateStep hasher sampler addr B g g') :
    g'.accepted + (g.served + g.node.droppedInboundConnections + g.stage.pending) =
      g.accepted + (g'.served + g'.node.droppedInboundConnections + g'.stage.pending) := by
  cases h with
  | accept stream hstage => simp only [hstage, Stage.pending]; omega
  | load hstage _ => simp only [hstage, Stage.pending]
  | refuse hstage _ => simp only [hstage, Stage.pending]
  | exchange hstage _ => simp only [hstage, Stage.pending]
  | retry hstage _ => simp only [hstage, Stage.pending]
  | spawn hstage => simp only [hstage, Stage.pending]; omega
  | drop hstage => simp only [hstage, Stage.pending, dropInboundConnection]; omega
  | handle i written _ _ => rw [(handleStream_steady _ _ _).dropped]
  | release i _ => rfl
  | join _ => rfl
  | other _ hdropped => rw [hdropped]

/-- A thread holds its permit from the beginning to its end. -/
lemma GateStep.handed (h : GateStep hasher sampler addr B g g') :
    g'.served + (g.released + g.running) = g.served + (g'.released + g'.running) := by
  cases h with
  | spawn _ =>
    unfold Gate.running
    simp only [List.countP_append]
    rw [show ∀ stream, [Handler.reading stream].countP Handler.holds = 1 from fun _ => rfl]
    omega
  | handle i _ hget _ =>
    have hrunning := running_handled hget
    unfold Gate.running at hrunning ⊢
    rw [hrunning]
  | release i hget =>
    have hrunning := running_finished hget
    unfold Gate.running at hrunning ⊢
    simp only
    omega
  | join _ =>
    have hrunning := running_join g
    unfold Gate.running at hrunning ⊢
    rw [hrunning]
  | _ => rfl

lemma Accounts.fits_step {node : NodeState} (hword : g.limit < wordSize) (h : Accounts node g)
    (hstep : GateStep hasher sampler addr B g g') : g'.stage.Fits g.limit g'.active := by
  have hfits := h.fits
  cases hstep with
  | accept stream _ => rfl
  | load hstage _ =>
    rw [hstage] at hfits
    exact ⟨hfits, le_refl g.active⟩
  | retry hstage _ =>
    rw [hstage] at hfits
    exact hfits.1
  | release i hget =>
    have hlowered := h.lowered hword (by have := running_finished hget; omega)
    cases hstage : g.stage with
    | exchanging stream limit current =>
      rw [hstage] at hfits
      refine ⟨hfits.1, ?_⟩
      have hle := hfits.2
      simp only
      omega
    | reserving stream limit =>
      rw [hstage, Stage.Fits] at hfits
      exact hfits
    | _ => trivial
  | handle _ _ _ _ => exact hfits
  | join _ => exact hfits
  | other _ _ => exact hfits
  | _ => trivial

/-- A failed attempt means that the count has fallen since it was read, and nothing but a permit
given back makes it fall. -/
lemma Accounts.attempts_step {node : NodeState} (hword : g.limit < wordSize)
    (h : Accounts node g) (hstep : GateStep hasher sampler addr B g g') :
    g'.retries + g'.stage.fallen g'.active ≤ g'.released := by
  have hattempts := h.attempts
  have hfits := h.fits
  cases hstep with
  | load hstage _ =>
    simp only [hstage, Stage.fallen] at hattempts ⊢
    omega
  | retry hstage hne =>
    rw [hstage] at hfits
    have hle := hfits.2
    simp only [hstage, Stage.fallen] at hattempts ⊢
    omega
  | release i hget =>
    have hlowered := h.lowered hword (by have := running_finished hget; omega)
    cases hstage : g.stage <;> simp only [hstage, Stage.fallen] at hattempts ⊢ <;> omega
  | handle _ _ _ _ => exact hattempts
  | join _ => exact hattempts
  | other _ _ => exact hattempts
  | _ => exact le_trans (Nat.add_le_add_left (Nat.zero_le _) _) hattempts

/-- **Each step of the loop and of the threads keeps the accounts.** -/
theorem Accounts.step {node : NodeState} (hword : node.network.maxInboundConnections < wordSize)
    (h : Accounts node g) (hstep : GateStep hasher sampler addr B g g') : Accounts node g' := by
  have hnetwork := hstep.network
  have hlimit : g'.limit = g.limit := by
    unfold Gate.limit
    rw [hnetwork]
  have hsmall : g.limit < wordSize := by
    unfold Gate.limit
    rw [h.network]
    exact hword
  refine ⟨hnetwork.trans h.network, ?_, ?_, ?_, ?_, h.attempts_step hsmall hstep⟩
  · rw [hlimit]
    exact h.fits_step hsmall hstep
  · rw [hlimit]
    rcases hstep.tally h.fits with hsame | hmove
    · rw [hsame]
      exact h.sound
    · exact h.sound.step hsmall hmove
  · have harrived := h.arrived
    have hkept := hstep.arrived
    omega
  · have hhanded := h.handed
    have hkept := hstep.handed
    omega

lemma Accounts.run {node : NodeState} (hword : node.network.maxInboundConnections < wordSize)
    (hrun : Relation.ReflTransGen (GateStep hasher sampler addr B) (opened node) g) :
    Accounts node g := by
  induction hrun with
  | refl => exact accounts_opened node
  | tail _ hstep ih => exact ih.step hword hstep

/-- The loop and its threads do nothing to the node but its own operations. -/
lemma GateStep.node (h : GateStep hasher sampler addr B g g') :
    g'.node = g.node ∨ ∃ event, NodeStep hasher sampler addr B g.node event g'.node := by
  cases h with
  | drop _ => exact .inr ⟨_, .dropInboundConnection⟩
  | handle i written _ hB => exact .inr ⟨_, .stream _ written hB⟩
  | other hstep _ => exact .inr ⟨_, hstep⟩
  | _ => exact .inl rfl

lemma run_node {node : NodeState}
    (hrun : Relation.ReflTransGen (GateStep hasher sampler addr B) (opened node) g) :
    ∃ events, NodeRun hasher sampler addr B node events g.node := by
  induction hrun with
  | refl => exact ⟨[], .start⟩
  | tail _ hstep ih =>
    obtain ⟨events, hevents⟩ := ih
    rcases hstep.node with hsame | ⟨event, hevent⟩
    · rw [hsame]
      exact ⟨events, hevents⟩
    · exact ⟨_, hevents.step hevent⟩

/-- **Connections that come in are bounded and accounted for**, however the loop, the threads and
the rest of the node take turns. The count of active connections is the number of permits that are
out and never exceeds the limit; a connection is turned away only while as many threads run as
there may be; each connection that was accepted has been handed to one thread, or dropped and
counted, or is the one the loop has in hand; each thread that was started runs, or has given its
permit back once; and attempts at the count that failed are no more than the permits given back. -/
theorem inbound_connections_bounded {node : NodeState}
    (hword : node.network.maxInboundConnections < wordSize)
    (hrun : Relation.ReflTransGen (GateStep hasher sampler addr B) (opened node) g) :
    (∃ events, NodeRun hasher sampler addr B node events g.node) ∧
      g.active = g.running + g.stage.granted ∧
      g.active ≤ node.network.maxInboundConnections ∧
      (∀ g', GateStep hasher sampler addr B g g' → g.stage ≠ .dropping → g'.stage = .dropping →
        g.running = node.network.maxInboundConnections) ∧
      g.accepted + node.droppedInboundConnections =
        g.served + g.node.droppedInboundConnections + g.stage.pending ∧
      g.served = g.released + g.running ∧
      g.retries ≤ g.released := by
  have haccounts := Accounts.run hword hrun
  have hlimit : g.limit = node.network.maxInboundConnections := by
    unfold Gate.limit
    rw [haccounts.network]
  have hactive := haccounts.active
  have hbound := haccounts.sound.bounded
  simp only [Gate.tally] at hbound
  refine ⟨run_node hrun, hactive, by omega, ?_, haccounts.arrived, haccounts.handed, ?_⟩
  · intro g' hstep hbefore hafter
    have hfits := haccounts.fits
    cases hstep with
    | refuse hstage hfull =>
      rw [hstage] at hfits hactive hbound
      simp only [Stage.Fits, Stage.granted] at hfits hactive hbound
      omega
    | drop hstage => exact absurd hstage hbefore
    | handle _ _ _ _ => exact absurd hafter hbefore
    | release _ _ => exact absurd hafter hbefore
    | join _ => exact absurd hafter hbefore
    | other _ _ => exact absurd hafter hbefore
    | _ => cases hafter
  · have hattempts := haccounts.attempts
    omega

/-- A node that has room for one connection at a time. -/
def narrowNode : NodeState :=
  let st := freshNode ⟨1, 1, 0⟩ none
  { st with network := { st.network with maxInboundConnections := 1 } }

/-- Two connections come in, and the second while the first is still being read. -/
theorem inbound_connections_bounded_turned_away :
    ∃ g, Relation.ReflTransGen (GateStep toyHash deterministicSampler ⟨fun _ => [], fun _ => none⟩
        fun _ => True) (opened narrowNode) g ∧
      g.accepted = 2 ∧ g.served = 1 ∧ g.node.droppedInboundConnections = 1 ∧
      g.active = g.running + g.stage.granted ∧ g.active ≤ 1 := by
  have hrun := (((((((Relation.ReflTransGen.refl (r := GateStep toyHash deterministicSampler
    ⟨fun _ => [], fun _ => none⟩ fun _ => True) (a := opened narrowNode)).tail
    (.accept ⟨[], false⟩ rfl)).tail (.load rfl Nat.zero_lt_one)).tail (.exchange rfl rfl)).tail
    (.spawn rfl)).tail (.accept ⟨[], false⟩ rfl)).tail (.refuse rfl (le_refl 1))).tail (.drop rfl)
  obtain ⟨-, hactive, hbound, -⟩ := inbound_connections_bounded (by decide) hrun
  exact ⟨_, hrun, rfl, rfl, rfl, hactive, hbound⟩

end Chesscoin.Connections

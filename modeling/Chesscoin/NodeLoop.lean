import Chesscoin.Accounting

/-!
The loop of a node.

The loop takes its commands one after the other, then mines when a miner is set and the time for
that has come, then syncs when it is time for that, sleeps, and begins again, until the flag that
stops it is set. What it does takes time, and meanwhile the threads that serve connections work on
the same node. Commands come from other threads, which may also set the flag.
-/

namespace Chesscoin.NodeLoop

open Chesscoin.Domain Chesscoin.Simulator Chesscoin.Mining Chesscoin.ForkChoice Chesscoin.Wire
  Chesscoin.Config Chesscoin.Validation Chesscoin.Runtime Chesscoin.Runs Chesscoin.ActiveView
  Chesscoin.LocalMining Chesscoin.Serving Chesscoin.Sync Chesscoin.Operations Chesscoin.Accounting
  Chesscoin.Adapters

/-! ### The loop -/

inductive NodeCommand
  | mineOnce (trainingSeed samplingEntropy : UInt64)
  | addPeer (peer : SocketAddr)
  | startMining (config : MinerConfig)
  | stopMining
  | syncOnce
  | stop
  deriving DecidableEq

def validateMinerConfig (config : MinerConfig) : Except String Unit :=
  if config.interval = 0 then .error "miner interval must be greater than zero" else .ok ()

/-- Where the loop stands. What is mined or synced is so by a command or by the timer. -/
inductive Stage
  | testing
  | draining
  | mining (trainingSeed samplingEntropy : UInt64) (timer : Bool)
  /-- A block has been mined, and its peers are greeted. -/
  | announcing (timer : Bool)
  | broadcasting (timer : Bool)
  | syncing (timer : Bool)
  /-- A new peer is greeted. -/
  | greeting
  | mineTimer
  | syncTimer
  | sleeping (wakeAt : ℕ)
  | ended
  deriving DecidableEq

/-- The node, the clock, what other threads have to do with the loop, the loop's own variables,
and what has happened so far: the commands sent and obeyed, and how often the timers have set the
loop to work. Times are nanoseconds. -/
structure Loop where
  node : NodeState
  now : ℕ
  flag : Bool
  commands : List NodeCommand
  miner : Option MinerConfig
  nextMineAt : ℕ
  nextSyncAt : ℕ
  stage : Stage
  sent : List NodeCommand
  obeyed : List NodeCommand
  timedMines : ℕ
  timedSyncs : ℕ

/-- A loop that begins. -/
def begun (node : NodeState) (miner : Option MinerConfig) (now : ℕ) : Loop :=
  ⟨node, now, false, [], miner, now, now, .testing, [], [], 0, 0⟩

/-- Ten milliseconds. -/
def napLength : ℕ := 10000000

/-- The next command has been taken from the channel. -/
def Loop.took (g : Loop) (command : NodeCommand) (rest : List NodeCommand) : Loop :=
  { g with commands := rest, obeyed := g.obeyed ++ [command] }

/-- A configuration that is not valid is counted, and the miner there is goes on. -/
def startMining (config : MinerConfig) (g : Loop) : Loop :=
  match validateMinerConfig config with
  | .ok () => { g with miner := some config, nextMineAt := g.now }
  | .error _ => { g with node := countMalformed g.node }

/-- What a command makes of the loop. -/
def obey (command : NodeCommand) (g : Loop) : Loop :=
  match command with
  | .mineOnce trainingSeed samplingEntropy =>
    { g with stage := .mining trainingSeed samplingEntropy false }
  | .addPeer peer =>
    let (added, node) := addPeer peer g.node
    { g with node, stage := if added then .greeting else .draining }
  | .startMining config => startMining config g
  | .stopMining => { g with miner := none }
  | .syncOnce => { g with stage := .syncing false }
  | .stop => { g with flag := true }

/-- Where the loop goes on after it has mined. -/
def minedNext (timer : Bool) (g : Loop) : Loop :=
  { g with
    nextMineAt := match timer, g.miner with
      | true, some config => g.now + config.interval
      | _, _ => g.nextMineAt
    stage := if timer then .syncTimer else .draining }

def syncedNext (interval : ℕ) (timer : Bool) (g : Loop) : Loop :=
  { g with
    nextSyncAt := g.now + interval
    stage := if timer then .sleeping (g.now + napLength) else .draining }

/-! ### Measures -/

/-- The timer has set the loop to sync, and it is not done. -/
def Stage.syncsByTimer : Stage → Bool
  | .syncing true => true
  | _ => false

/-- The timer has set the loop to mine, and it is not done. -/
def Stage.minesByTimer : Stage → Bool
  | .mining _ _ true => true
  | .announcing true => true
  | .broadcasting true => true
  | _ => false

def startsMining : NodeCommand → Bool
  | .startMining config => config.interval ≠ 0
  | _ => false

/-- How often a command has set a miner. -/
def Loop.starts (g : Loop) : ℕ := g.obeyed.countP startsMining

/-- How far it is at most from a stage to the end, when no command waits. -/
def Stage.weight : Stage → ℕ
  | .ended => 0
  | .testing => 1
  | .sleeping _ => 2
  | .syncing true => 3
  | .syncTimer => 4
  | .broadcasting true => 5
  | .announcing true => 6
  | .mining _ _ true => 7
  | .mineTimer => 8
  | .draining => 9
  | .greeting => 10
  | .syncing false => 10
  | .broadcasting false => 10
  | .announcing false => 11
  | .mining _ _ false => 12

/-- How far it is at most to the end, once the flag is set. -/
def Loop.left (g : Loop) : ℕ := g.stage.weight + 4 * g.commands.length

/-- The same, when time has passed. -/
def Loop.later (g : Loop) (d : ℕ) : Loop := { g with now := g.now + d }

/-! ### Steps -/

section

variable (hasher : HashPort) (sampler : SamplingPort) (addr : AddrText) (B : Block → Prop)
  (sync : SyncConfig)

/-- What goes on beside the loop: the clock, the threads that send commands and set the flag, and
the operations of other threads. What the loop does of connections and in a sync is of the same
kinds. -/
inductive Beside : Loop → Loop → Prop
  | tick {g : Loop} (d : ℕ) : Beside g { g with now := g.now + d }
  | send {g : Loop} (command : NodeCommand) :
      Beside g { g with commands := g.commands ++ [command], sent := g.sent ++ [command] }
  | raise {g : Loop} : Beside g { g with flag := true }
  | operate {g : Loop} {event : Event} {node : NodeState} :
      NodeStep hasher sampler addr B g.node event node → (∀ block, event ≠ .mined block) →
      Beside g { g with node }

/-- The steps of the loop. -/
inductive Turn : Loop → Loop → Prop
  | test {g : Loop} : g.stage = .testing → g.flag = false → Turn g { g with stage := .draining }
  | leave {g : Loop} : g.stage = .testing → g.flag = true → Turn g { g with stage := .ended }
  | take {g : Loop} {command : NodeCommand} {rest : List NodeCommand} : g.stage = .draining →
      g.commands = command :: rest → Turn g (obey command (g.took command rest))
  | drained {g : Loop} : g.stage = .draining → g.commands = [] →
      Turn g { g with stage := .mineTimer }
  | mine {g : Loop} {trainingSeed samplingEntropy : UInt64} {timer : Bool} {node : NodeState}
      {block : Block} : g.stage = .mining trainingSeed samplingEntropy timer →
      mineOnce hasher sampler trainingSeed samplingEntropy g.node = some (.ok (node, block)) →
      B block → Turn g { g with node, stage := .announcing timer }
  | announced {g : Loop} {timer : Bool} (sent failed : ℕ) : g.stage = .announcing timer →
      sent + failed ≤ g.node.peers.length →
      Turn g { g with
        node := recordHelloAnnouncements sent failed g.node, stage := .broadcasting timer }
  | broadcast {g : Loop} {timer : Bool} (sent failed : ℕ) : g.stage = .broadcasting timer →
      sent + failed ≤ g.node.peers.length →
      Turn g (minedNext timer { g with node := recordBroadcast sent failed g.node })
  | greeted {g : Loop} (sent failed : ℕ) : g.stage = .greeting → sent + failed = 1 →
      Turn g { g with
        node := recordHelloAnnouncements sent failed g.node, stage := .draining }
  | synced {g : Loop} {timer : Bool} : g.stage = .syncing timer →
      Turn g (syncedNext sync.interval timer g)
  | mineDue {g : Loop} (seed : UInt64) : g.stage = .mineTimer → g.miner.isSome →
      g.nextMineAt ≤ g.now →
      Turn g { g with
        stage := .mining seed (rotateLeft seed 7) true, timedMines := g.timedMines + 1 }
  | mineWaits {g : Loop} : g.stage = .mineTimer → (g.miner = none ∨ g.now < g.nextMineAt) →
      Turn g { g with stage := .syncTimer }
  | syncDue {g : Loop} : g.stage = .syncTimer → sync.enabled → g.nextSyncAt ≤ g.now →
      Turn g { g with stage := .syncing true, timedSyncs := g.timedSyncs + 1 }
  | syncWaits {g : Loop} : g.stage = .syncTimer →
      (sync.enabled = false ∨ g.now < g.nextSyncAt) →
      Turn g { g with stage := .sleeping (g.now + napLength) }
  | wake {g : Loop} {wakeAt : ℕ} : g.stage = .sleeping wakeAt → wakeAt ≤ g.now →
      Turn g { g with stage := .testing }

/-- A run, with the number of steps of the loop itself. -/
inductive Run (g₀ : Loop) : ℕ → Loop → Prop
  | start : Run g₀ 0 g₀
  | turn {n : ℕ} {g g' : Loop} : Run g₀ n g → Turn hasher sampler B sync g g' →
      Run g₀ (n + 1) g'
  | beside {n : ℕ} {g g' : Loop} : Run g₀ n g → Beside hasher sampler addr B g g' → Run g₀ n g'

end

variable {hasher : HashPort} {sampler : SamplingPort} {addr : AddrText} {B : Block → Prop}
  {sync : SyncConfig} {g g' : Loop} {st st' : NodeState} {event : Event}

/-! ### Commands -/

/-- What a command makes of the miner. -/
def instruct (miner : Option MinerConfig) : NodeCommand → Option MinerConfig
  | .startMining config => if config.interval = 0 then miner else some config
  | .stopMining => none
  | _ => miner

def isMineOnce : NodeCommand → Bool
  | .mineOnce _ _ => true
  | _ => false

/-- What the loop has been told to mine and the timer has made it mine. -/
def Loop.asked (g : Loop) : ℕ := g.obeyed.countP isMineOnce + g.timedMines

/-- A block that is asked for, by a command or by the timer, with the seeds it is asked for with. -/
structure Request where
  trainingSeed : UInt64
  samplingEntropy : UInt64
  timer : Bool

def requestOf : NodeCommand → Option Request
  | .mineOnce trainingSeed samplingEntropy => some ⟨trainingSeed, samplingEntropy, false⟩
  | _ => none

/-- The request the loop is at. -/
def Stage.request : Stage → List Request
  | .mining trainingSeed samplingEntropy timer => [⟨trainingSeed, samplingEntropy, timer⟩]
  | _ => []

/-- The block has been mined with the seeds of the request. -/
def Request.Met (r : Request) (block : Block) : Prop :=
  block.header.trainingSeed = r.trainingSeed ∧ block.header.samplingEntropy = r.samplingEntropy

/-- The timer takes its entropy from its seed. -/
def Request.Turned (r : Request) : Prop :=
  r.timer = true → r.samplingEntropy = rotateLeft r.trainingSeed 7

def minedBlock : Event → Option Block
  | .mined block => some block
  | _ => none

lemma startMining_cases (config : MinerConfig) (g : Loop) :
    (config.interval = 0 ∧ startMining config g = { g with node := countMalformed g.node }) ∨
      (config.interval ≠ 0 ∧
        startMining config g = { g with miner := some config, nextMineAt := g.now }) := by
  unfold startMining validateMinerConfig
  by_cases hzero : config.interval = 0
  · exact .inl ⟨hzero, by rw [if_pos hzero]⟩
  · exact .inr ⟨hzero, by rw [if_neg hzero]⟩

lemma obey_miner (command : NodeCommand) (g : Loop) :
    (obey command g).miner = instruct g.miner command := by
  cases command with
  | startMining config =>
    rcases startMining_cases config g with ⟨hzero, heq⟩ | ⟨hzero, heq⟩
    · simp only [obey, instruct, heq, if_pos hzero]
    · simp only [obey, instruct, heq, if_neg hzero]
  | _ => rfl

lemma obey_queue (command : NodeCommand) (g : Loop) :
    (obey command g).sent = g.sent ∧ (obey command g).obeyed = g.obeyed ∧
      (obey command g).commands = g.commands := by
  cases command with
  | startMining config =>
    rcases startMining_cases config g with ⟨-, heq⟩ | ⟨-, heq⟩ <;>
      simp only [obey, heq, and_self]
  | _ => exact ⟨rfl, rfl, rfl⟩

/-- A command is one operation of the node at most. -/
lemma obey_node (hasher : HashPort) (sampler : SamplingPort) (addr : AddrText)
    (B : Block → Prop) (command : NodeCommand) (g : Loop) :
    (obey command g).node = g.node ∨ ∃ event,
      NodeStep hasher sampler addr B g.node event (obey command g).node ∧
        ∀ block, event ≠ .mined block := by
  cases command with
  | addPeer peer => exact .inr ⟨.aside, .addPeer peer, fun _ => Event.noConfusion⟩
  | startMining config =>
    rcases startMining_cases config g with ⟨-, heq⟩ | ⟨-, heq⟩ <;> simp only [obey, heq]
    · exact .inr ⟨.aside, .refuseMiner, fun _ => Event.noConfusion⟩
    · exact .inl trivial
  | _ => exact .inl rfl

/-! ### The node -/

/-- A block is mined with the seeds mining was called with. -/
lemma mineOnce_met {trainingSeed samplingEntropy : UInt64} {block : Block} (timer : Bool)
    (h : mineOnce hasher sampler trainingSeed samplingEntropy st = some (.ok (st', block))) :
    (⟨trainingSeed, samplingEntropy, timer⟩ : Request).Met block := by
  obtain ⟨nonce, rfl, -⟩ := mineAfter_eq_some hasher (mineOnce_ok h).1
  exact ⟨rfl, rfl⟩

/-! ### Requests -/

/-- The requests that the commands and the timer have made, up to where the loop is. -/
structure Requested (requests : List Request) (g : Loop) : Prop where
  commands : requests.filter (fun r => !r.timer) = g.obeyed.filterMap requestOf
  timed : requests.countP (·.timer) = g.timedMines
  turned : ∀ r ∈ requests, r.Turned

/-- What the loop turns to is what a command or the timer asks for. -/
structure Turns (g g' : Loop) : Prop where
  commands : g'.obeyed.filterMap requestOf =
    g.obeyed.filterMap requestOf ++ g'.stage.request.filter fun r => !r.timer
  timed : g'.timedMines = g.timedMines + g'.stage.request.countP (·.timer)
  turned : ∀ r ∈ g'.stage.request, r.Turned

lemma Requested.same {requests : List Request} (h : Requested requests g)
    (hobeyed : g'.obeyed = g.obeyed) (htimed : g'.timedMines = g.timedMines) :
    Requested requests g' :=
  ⟨h.commands.trans (by rw [hobeyed]), h.timed.trans htimed.symm, h.turned⟩

lemma Requested.turns {requests : List Request} (h : Requested requests g) (hturns : Turns g g') :
    Requested (requests ++ g'.stage.request) g' := by
  refine ⟨?_, ?_, fun r hr => ?_⟩
  · rw [List.filter_append, h.commands, hturns.commands]
  · rw [List.countP_append, h.timed, hturns.timed]
  · rcases List.mem_append.mp hr with hr | hr
    · exact h.turned r hr
    · exact hturns.turned r hr

lemma Requested.length {requests : List Request} (h : Requested requests g) :
    requests.length = g.asked := by
  have hcommands := congrArg List.length h.commands
  have hcount : ∀ l : List NodeCommand, (l.filterMap requestOf).length = l.countP isMineOnce := by
    intro l
    induction l with
    | nil => rfl
    | cons command l ih =>
      rw [List.filterMap_cons, List.countP_cons]
      cases command <;> simp [requestOf, isMineOnce, ih]
  have hboth := List.length_eq_countP_add_countP (fun r : Request => r.timer) (l := requests)
  rw [hcount, ← List.countP_eq_length_filter] at hcommands
  simp only [Bool.not_eq_true, Bool.decide_eq_false] at hboth
  rw [Loop.asked, ← h.timed, ← hcommands, hboth, Nat.add_comm]

lemma Turns.idle (hobeyed : g'.obeyed = g.obeyed) (htimed : g'.timedMines = g.timedMines)
    (hstage : g'.stage.request = []) : Turns g g' := by
  refine ⟨?_, ?_, ?_⟩
  · rw [hobeyed, hstage, List.filter_nil, List.append_nil]
  · rw [htimed, hstage]
    rfl
  · rw [hstage]
    exact fun r hr => absurd hr List.not_mem_nil

lemma obey_request (command : NodeCommand) (hstage : g.stage = .draining) :
    (obey command g).stage.request = (requestOf command).toList := by
  cases command with
  | addPeer peer =>
    show (if (addPeer peer g.node).1 then Stage.greeting else Stage.draining).request = []
    split <;> rfl
  | startMining config =>
    rcases startMining_cases config g with ⟨-, heq⟩ | ⟨-, heq⟩ <;>
      simp only [obey, heq, hstage] <;> rfl
  | stopMining =>
    show g.stage.request = []
    rw [hstage]
    rfl
  | stop =>
    show g.stage.request = []
    rw [hstage]
    rfl
  | _ => rfl

lemma obey_timed (command : NodeCommand) (g : Loop) :
    (obey command g).timedMines = g.timedMines ∧ (obey command g).timedSyncs = g.timedSyncs ∧
      (obey command g).now = g.now ∧ (obey command g).nextSyncAt = g.nextSyncAt := by
  cases command with
  | startMining config =>
    rcases startMining_cases config g with ⟨-, heq⟩ | ⟨-, heq⟩ <;>
      simp only [obey, heq, and_self]
  | _ => exact ⟨rfl, rfl, rfl, rfl⟩

lemma turns_take (command : NodeCommand) (rest : List NodeCommand) (hstage : g.stage = .draining) :
    Turns g (obey command (g.took command rest)) := by
  have hrequest := obey_request (g := g.took command rest) command hstage
  obtain ⟨-, hobeyed, -⟩ := obey_queue command (g.took command rest)
  obtain ⟨htimed, -⟩ := obey_timed command (g.took command rest)
  refine ⟨?_, ?_, ?_⟩
  · rw [hobeyed, hrequest]
    simp only [Loop.took, List.filterMap_append]
    cases command <;> rfl
  · rw [htimed, hrequest]
    cases command <;> rfl
  · rw [hrequest]
    intro r hr htimer
    cases command <;> simp [requestOf] at hr
    rw [hr] at htimer
    cases htimer

/-- **What the loop does to the node** is one of its operations, if anything. Either it mines the
block it has been asked for, or it mines nothing and may turn to a request. -/
theorem Turn.node (addr : AddrText) (h : Turn hasher sampler B sync g g') :
    (∃ block r, NodeStep hasher sampler addr B g.node (.mined block) g'.node ∧ r.Met block ∧
        g.stage.request = [r] ∧ g'.stage.request = [] ∧ g'.obeyed = g.obeyed ∧
        g'.timedMines = g.timedMines) ∨
      ((g'.node = g.node ∨ ∃ event, NodeStep hasher sampler addr B g.node event g'.node ∧
          ∀ block, event ≠ .mined block) ∧ g.stage.request = [] ∧ Turns g g') := by
  have haside : ∀ block, Event.aside ≠ .mined block := fun _ => Event.noConfusion
  cases h with
  | @mine _ _ timer _ _ hstage hmine hB =>
    refine .inl ⟨_, _, .mine _ _ hmine hB, mineOnce_met timer hmine, ?_, rfl, rfl, rfl⟩
    rw [hstage]
    rfl
  | take hstage _ =>
    refine .inr ⟨obey_node hasher sampler addr B _ _, ?_, turns_take _ _ hstage⟩
    rw [hstage]
    rfl
  | mineDue seed hstage _ _ =>
    refine .inr ⟨.inl rfl, by rw [hstage]; rfl, ?_, rfl, fun r hr _ => ?_⟩
    · exact (List.append_nil _).symm
    · rw [List.mem_singleton.mp hr]
  | announced sent failed hstage _ =>
    exact .inr ⟨.inr ⟨.aside, .recordHelloAnnouncements sent failed, haside⟩,
      by rw [hstage]; rfl, .idle rfl rfl rfl⟩
  | @broadcast timer sent failed hstage _ =>
    refine .inr ⟨.inr ⟨.aside, .recordBroadcast sent failed, haside⟩, by rw [hstage]; rfl,
      .idle rfl rfl ?_⟩
    cases timer <;> rfl
  | greeted sent failed hstage _ =>
    exact .inr ⟨.inr ⟨.aside, .recordHelloAnnouncements sent failed, haside⟩,
      by rw [hstage]; rfl, .idle rfl rfl rfl⟩
  | @synced timer hstage =>
    refine .inr ⟨.inl rfl, by rw [hstage]; rfl, .idle rfl rfl ?_⟩
    cases timer <;> rfl
  | test hstage _ | leave hstage _ | drained hstage _ | mineWaits hstage _ | syncDue hstage _ _
  | syncWaits hstage _ | wake hstage _ =>
    exact .inr ⟨.inl rfl, by rw [hstage]; rfl, .idle rfl rfl rfl⟩

/-! ### Obedience -/

/-- The node has mined a block for each request but the one the loop is at, in their order. -/
def AllMet (events : List Event) (requests : List Request) (g : Loop) : Prop :=
  ∃ met, requests = met ++ g.stage.request ∧
    List.Forall₂ Request.Met met (events.filterMap minedBlock)

lemma filterMap_quiet {event : Event} (events : List Event)
    (hother : ∀ block, event ≠ .mined block) :
    (events ++ [event]).filterMap minedBlock = events.filterMap minedBlock := by
  rw [List.filterMap_append]
  cases event with
  | mined block => exact absurd rfl (hother block)
  | _ => exact List.append_nil _

/-- **Each block that is asked for is mined, once**, in a run of the node. -/
lemma Run.met {node : NodeState} {miner : Option MinerConfig} {now n : ℕ}
    (hrun : Run hasher sampler addr B sync (begun node miner now) n g) :
    ∃ events requests, NodeRun hasher sampler addr B node events g.node ∧
      Requested requests g ∧ AllMet events requests g := by
  induction hrun with
  | start =>
    exact ⟨[], [], .start, ⟨rfl, rfl, fun r hr => absurd hr List.not_mem_nil⟩, [], rfl, .nil⟩
  | @turn n g g' _ hturn ih =>
    obtain ⟨events, requests, hnode, hrequested, met, rfl, hmet⟩ := ih
    rcases hturn.node addr with ⟨block, r, hstep, hblock, hat, hpast, hobeyed, htimed⟩ |
      ⟨hnodes, hat, hturns⟩
    · rw [hat] at hrequested
      refine ⟨_, met ++ [r], hnode.step hstep, hrequested.same hobeyed htimed, met ++ [r], ?_, ?_⟩
      · rw [hpast, List.append_nil]
      · rw [List.filterMap_append]
        exact List.rel_append hmet (.cons hblock .nil)
    · rw [hat, List.append_nil] at hrequested
      have hrequested' := hrequested.turns hturns
      rcases hnodes with hsame | ⟨event, hstep, hother⟩
      · exact ⟨events, _, hsame ▸ hnode, hrequested', met, rfl, hmet⟩
      · refine ⟨_, _, hnode.step hstep, hrequested', met, rfl, ?_⟩
        rwa [filterMap_quiet events hother]
  | beside _ hbeside ih =>
    obtain ⟨events, requests, hnode, hrequested, hmet⟩ := ih
    cases hbeside with
    | operate hstep hother =>
      obtain ⟨met, hrequests, hmet⟩ := hmet
      refine ⟨_, requests, hnode.step hstep, hrequested.same rfl rfl, met, hrequests, ?_⟩
      rwa [filterMap_quiet events hother]
    | _ => exact ⟨events, requests, hnode, hrequested.same rfl rfl, hmet⟩

/-- What the loop has done is what its commands and its timer have asked for. -/
structure Obedient (miner : Option MinerConfig) (g : Loop) : Prop where
  queue : g.sent = g.obeyed ++ g.commands
  miner : g.miner = g.obeyed.foldl instruct miner

lemma Obedient.turn {miner : Option MinerConfig} (h : Obedient miner g)
    (hturn : Turn hasher sampler B sync g g') : Obedient miner g' := by
  cases hturn with
  | @take command rest hstage hqueue =>
    obtain ⟨hsent, hobeyed, hcommands⟩ := obey_queue command (g.took command rest)
    refine ⟨?_, ?_⟩
    · rw [hsent, hobeyed, hcommands]
      simp only [Loop.took, List.append_assoc, List.singleton_append]
      rw [← hqueue]
      exact h.queue
    · rw [obey_miner, hobeyed]
      simp only [Loop.took, List.foldl_append, List.foldl_cons, List.foldl_nil]
      rw [h.miner]
  | _ => exact ⟨h.queue, h.miner⟩

lemma Obedient.beside {miner : Option MinerConfig} (h : Obedient miner g)
    (hbeside : Beside hasher sampler addr B g g') : Obedient miner g' := by
  cases hbeside with
  | send command =>
    refine ⟨?_, h.miner⟩
    rw [h.queue, List.append_assoc]
  | _ => exact ⟨h.queue, h.miner⟩

/-- From where the loop is at a request, it mines and goes on, whatever its peers answer. -/
lemma run_mines {g₀ : Loop} {n : ℕ} {trainingSeed samplingEntropy : UInt64} {timer : Bool}
    {block : Block} (hnonzero : ∀ b, B b → blockHash hasher b ≠ Digest.zero)
    (hrun : Run hasher deterministicSampler addr B sync g₀ n g)
    (hstage : g.stage = .mining trainingSeed samplingEntropy timer)
    (hactive : Active hasher deterministicSampler B g.node) (hB : B block)
    (hmined : g.node.forkChoice.mineNextBlock hasher trainingSeed samplingEntropy = some block) :
    ∃ node, Run hasher deterministicSampler addr B sync g₀ (n + 3)
        (minedNext timer { g with node }) ∧
      Active hasher deterministicSampler B node ∧
      node.forkChoice = (g.node.forkChoice.insertBlock hasher deterministicSampler block).2 := by
  obtain ⟨st, hmine, hfc, -⟩ :=
    mineOnce_succeeds hactive deterministicSampler_inRange hnonzero hB hmined
  have hactive' := hactive.move hnonzero (mineOnce_move hmine hB)
  have hturns := ((hrun.turn (.mine hstage hmine hB)).turn (.announced 0 0 rfl
    (Nat.zero_le _))).turn (.broadcast 0 0 rfl (Nat.zero_le _))
  exact ⟨_, hturns, hactive'.move hnonzero (.idle rfl rfl rfl), hfc⟩

lemma Run.trans {g₀ g₁ : Loop} {m n : ℕ} (h : Run hasher sampler addr B sync g₀ m g₁)
    (h' : Run hasher sampler addr B sync g₁ n g) : Run hasher sampler addr B sync g₀ (m + n) g := by
  induction h' with
  | start => exact h
  | turn _ hturn ih => exact ih.turn hturn
  | beside _ hbeside ih => exact ih.beside hbeside

/-- What a node mines after a block when the timer has this seed. -/
def timedAfter (block : Block) (seed : UInt64) : Block :=
  candidate toyHash ⟨1, 1, 0⟩
    ⟨block.header.height + 1, blockHash toyHash block, block.header.modelAfter⟩ seed
    (rotateLeft seed 7) 0

def toldBlock : Block := candidate toyHash ⟨1, 1, 0⟩ ParentContext.genesis 3 5 0
def timedBlock : Block := timedAfter toldBlock 9
def lastBlock : Block := timedAfter timedBlock 11

def busyBlocks : List Block := [toldBlock, timedBlock, lastBlock]

lemma busyBlocks_nonzero : ∀ b, b ∈ busyBlocks → blockHash toyHash b ≠ Digest.zero := by
  have h : ∀ b ∈ busyBlocks, blockHash toyHash b ≠ Digest.zero := by decide +kernel
  exact h

/-- What is mined on a fork choice with this best tip when no work is asked for. -/
lemma mined_on {fc : ForkChoiceState} {context : ParentContext} (hconfig : fc.config = ⟨1, 1, 0⟩)
    (hcontext : fc.bestContext = context) (trainingSeed samplingEntropy : UInt64) :
    fc.mineNextBlock toyHash trainingSeed samplingEntropy =
      some (candidate toyHash ⟨1, 1, 0⟩ context trainingSeed samplingEntropy 0) := by
  rw [ForkChoiceState.mineNextBlock, hconfig, hcontext]
  exact mineAfter_of_difficulty_zero toyHash rfl _ _ _

def quietNode : NodeState := freshNode ⟨1, 1, 0⟩ none

/-- The insertion of the first block of the run. -/
def toldRun : Except ForkChoiceError Digest × ForkChoiceState :=
  quietNode.forkChoice.insertBlock toyHash deterministicSampler toldBlock

/-- The insertion of the next one. -/
def timedRun : Except ForkChoiceError Digest × ForkChoiceState :=
  toldRun.2.insertBlock toyHash deterministicSampler timedBlock

lemma toldRun_mines : toldRun.2.mineNextBlock toyHash 9 (rotateLeft 9 7) = some timedBlock := by
  have hcontext : toldRun.2.bestContext =
      ⟨1, blockHash toyHash toldBlock, toldBlock.header.modelAfter⟩ := by decide +kernel
  exact mined_on (by decide +kernel) hcontext 9 _

lemma timedRun_mines : timedRun.2.mineNextBlock toyHash 11 (rotateLeft 11 7) = some lastBlock := by
  have hcontext : timedRun.2.bestContext =
      ⟨2, blockHash toyHash timedBlock, timedBlock.header.modelAfter⟩ := by decide +kernel
  exact mined_on (by decide +kernel) hcontext 11 _

/-- A miner and a time between two syncs of five seconds. -/
def busyMiner : Option MinerConfig := some ⟨5 * second⟩

abbrev BusyRun : Loop → ℕ → Loop → Prop :=
  Run toyHash deterministicSampler ⟨fun _ => [], fun _ => none⟩ (· ∈ busyBlocks)
    SyncConfig.default

/-- The loop of the run once it has been told to stop. -/
def toldToStop (node : NodeState) : Loop :=
  ⟨node, 0 + 5 * second, true, [], busyMiner, 0 + 5 * second, 0 + 5 * second, .draining,
    [.mineOnce 3 5, .stop], [.mineOnce 3 5, .stop], 1, 1⟩

/-- A command has the loop mine, its timer does, and then the command to stop comes. -/
lemma busy_begins : ∃ node, BusyRun (begun quietNode busyMiner 0) 15 (toldToStop node) ∧
    Active toyHash deterministicSampler (· ∈ busyBlocks) node ∧
    node.forkChoice = timedRun.2 := by
  have hactive : Active toyHash deterministicSampler (· ∈ busyBlocks) quietNode :=
    Start.active (freshNode_start _ : Start toyHash deterministicSampler
      ⟨fun _ => [], fun _ => none⟩ (· ∈ busyBlocks) quietNode)
  have htold : quietNode.forkChoice.mineNextBlock toyHash 3 5 = some toldBlock :=
    mined_on rfl rfl 3 5
  -- the command, and what it asks for
  have htaken : BusyRun (begun quietNode busyMiner 0) 2 _ :=
    ((Run.start.beside (.send (.mineOnce 3 5))).turn (.test rfl rfl)).turn (.take rfl rfl)
  have hstart : BusyRun (begun quietNode busyMiner 0) 2
      ⟨quietNode, 0, false, [], busyMiner, 0, 0, .mining 3 5 false, [.mineOnce 3 5],
        [.mineOnce 3 5], 0, 0⟩ := htaken
  obtain ⟨st₁, hrun₁, hactive₁, hfc₁⟩ := run_mines busyBlocks_nonzero hstart rfl hactive
    (by simp [busyBlocks]) htold
  have hchoice₁ : st₁.forkChoice = toldRun.2 := by rw [hfc₁, toldRun]
  have htimed := toldRun_mines
  rw [← hchoice₁] at htimed
  -- the timer
  have hturned := (hrun₁.turn (.drained rfl rfl)).turn (.mineDue 9 rfl rfl (le_refl 0))
  have hdue : BusyRun (begun quietNode busyMiner 0) 7
      ⟨st₁, 0, false, [], busyMiner, 0, 0, .mining 9 (rotateLeft 9 7) true, [.mineOnce 3 5],
        [.mineOnce 3 5], 1, 0⟩ := hturned
  obtain ⟨st₂, hrun₂, hactive₂, hfc₂⟩ := run_mines busyBlocks_nonzero hdue rfl hactive₁
    (by simp [busyBlocks]) htimed
  have hnap : napLength ≤ 5 * second := by decide
  have hstop := ((((((hrun₂.turn (.syncDue rfl rfl (le_refl 0))).turn (.synced rfl)).beside
    (.tick (5 * second))).turn (.wake rfl (Nat.add_le_add_left hnap 0))).beside (.send .stop)).turn
    (.test rfl rfl)).turn (.take rfl rfl)
  refine ⟨st₂, hstop, hactive₂, ?_⟩
  rw [hfc₂, hchoice₁, timedRun]

/-- The timer has the loop mine and sync again before it ends. -/
lemma busy_ends {node : NodeState}
    (hactive : Active toyHash deterministicSampler (· ∈ busyBlocks) node)
    (hchoice : node.forkChoice = timedRun.2) :
    ∃ g, BusyRun (toldToStop node) 9 g ∧ g.stage = .ended ∧ g.obeyed = [.mineOnce 3 5, .stop] ∧
      g.timedMines = 2 ∧ g.timedSyncs = 2 ∧ g.now = 0 + 5 * second + napLength := by
  have hlast := timedRun_mines
  rw [← hchoice] at hlast
  have hstart : BusyRun (toldToStop node) 0 (toldToStop node) := .start
  obtain ⟨st, hrun, -, -⟩ := run_mines busyBlocks_nonzero
    ((hstart.turn (.drained rfl rfl)).turn (.mineDue 11 rfl rfl (le_refl (0 + 5 * second)))) rfl
    hactive (by simp [busyBlocks]) hlast
  have hend := ((((hrun.turn (.syncDue rfl rfl (le_refl (0 + 5 * second)))).turn
    (.synced rfl)).beside (.tick napLength)).turn (.wake rfl (le_refl _))).turn (.leave rfl rfl)
  exact ⟨_, hend, rfl, rfl, rfl, rfl, rfl⟩

end Chesscoin.NodeLoop

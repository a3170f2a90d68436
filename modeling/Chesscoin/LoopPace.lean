import Chesscoin.NodeLoop

/-!
The pace of the loop, and its end.

The timers of the loop are read once in each round, after the commands. A sync or a mining that a
timer starts is followed by a pause, counted from its end; the timer of the miner also starts anew
when a command sets a miner. Once the flag is set, each step brings the loop nearer to its end.
-/

namespace Chesscoin.LoopPace

open Chesscoin.Domain Chesscoin.Simulator Chesscoin.Wire Chesscoin.Config Chesscoin.Runtime
  Chesscoin.Runs Chesscoin.Serving Chesscoin.Operations Chesscoin.Adapters Chesscoin.NodeLoop

variable {hasher : HashPort} {sampler : SamplingPort} {addr : AddrText} {B : Block → Prop}
  {sync : SyncConfig} {g g' : Loop}

/-! ### Pace -/

/-- The next sync by the timer is never further away than the interval. -/
structure SyncPace (sync : SyncConfig) (from_ : Loop) (g : Loop) : Prop where
  clock : from_.now ≤ g.now
  near : g.nextSyncAt ≤ g.now + sync.interval
  due : g.stage.syncsByTimer = true → g.nextSyncAt ≤ g.now
  paced : from_.now + g.timedSyncs * sync.interval ≤
    max g.nextSyncAt from_.now + from_.timedSyncs * sync.interval +
      g.stage.syncsByTimer.toNat * sync.interval

lemma SyncPace.bound {from_ : Loop} (h : SyncPace sync from_ g) :
    from_.now + g.timedSyncs * sync.interval ≤
      g.now + (from_.timedSyncs + 1) * sync.interval := by
  have hclock := h.clock
  have hnear := h.near
  have hpaced := h.paced
  rw [Nat.add_mul, Nat.one_mul]
  cases hstage : g.stage.syncsByTimer with
  | false =>
    rw [hstage, Bool.toNat_false, Nat.zero_mul] at hpaced
    omega
  | true =>
    have hdue := h.due hstage
    rw [hstage, Bool.toNat_true, Nat.one_mul] at hpaced
    omega

lemma obey_notTimed (command : NodeCommand) (hstage : g.stage = .draining) :
    (obey command g).stage.syncsByTimer = false ∧ (obey command g).stage.minesByTimer = false := by
  cases command with
  | addPeer peer =>
    show (if (addPeer peer g.node).1 then Stage.greeting else Stage.draining).syncsByTimer = _ ∧
      (if (addPeer peer g.node).1 then Stage.greeting else Stage.draining).minesByTimer = _
    split <;> exact ⟨rfl, rfl⟩
  | startMining config =>
    rcases startMining_cases config g with ⟨-, heq⟩ | ⟨-, heq⟩ <;>
      simp only [obey, heq, hstage] <;> exact ⟨rfl, rfl⟩
  | stopMining =>
    show g.stage.syncsByTimer = _ ∧ g.stage.minesByTimer = _
    rw [hstage]
    exact ⟨rfl, rfl⟩
  | stop =>
    show g.stage.syncsByTimer = _ ∧ g.stage.minesByTimer = _
    rw [hstage]
    exact ⟨rfl, rfl⟩
  | _ => exact ⟨rfl, rfl⟩

lemma SyncPace.turn {from_ : Loop} (h : SyncPace sync from_ g)
    (hturn : Turn hasher sampler B sync g g') : SyncPace sync from_ g' := by
  have hclock := h.clock
  have hnear := h.near
  have hpaced := h.paced
  have hbound := h.bound
  cases hturn with
  | @take command rest hstage hqueue =>
    obtain ⟨-, hsyncs, hnow, hnext⟩ := obey_timed command (g.took command rest)
    obtain ⟨hnot, -⟩ := obey_notTimed (g := g.took command rest) command hstage
    rw [hstage] at hpaced
    refine ⟨?_, ?_, ?_, ?_⟩
    · rw [hnow]
      exact hclock
    · rw [hnow, hnext]
      exact hnear
    · rw [hnot]
      exact fun hfalse => Bool.noConfusion hfalse
    · rw [hsyncs, hnext, hnot]
      exact hpaced
  | @broadcast timer _ _ hstage _ =>
    rw [hstage] at hpaced
    refine ⟨hclock, hnear, ?_, ?_⟩
    · cases timer <;> exact fun hfalse => Bool.noConfusion hfalse
    · cases timer <;> exact hpaced
  | @synced timer hstage =>
    refine ⟨hclock, le_refl _, ?_, ?_⟩
    · cases timer <;> exact fun hfalse => Bool.noConfusion hfalse
    · have hnone : (syncedNext sync.interval timer g).stage.syncsByTimer = false := by
        cases timer <;> rfl
      rw [hnone, Bool.toNat_false, Nat.zero_mul]
      simp only [syncedNext]
      rw [Nat.add_mul, Nat.one_mul] at hbound
      omega
  | syncDue hstage _ hdue =>
    refine ⟨hclock, hnear, fun _ => hdue, ?_⟩
    rw [hstage] at hpaced
    simp only [Stage.syncsByTimer, Bool.toNat_false, Bool.toNat_true, Nat.zero_mul,
      Nat.one_mul] at hpaced ⊢
    rw [Nat.add_mul, Nat.one_mul]
    omega
  | test hstage _ | leave hstage _ | drained hstage _ | mineWaits hstage _ | syncWaits hstage _
  | wake hstage _ | announced _ _ hstage _ | greeted _ _ hstage _ | mine hstage _ _
  | mineDue _ hstage _ _ =>
    rw [hstage] at hpaced
    exact ⟨hclock, hnear, fun hfalse => Bool.noConfusion hfalse, hpaced⟩

lemma SyncPace.beside {from_ : Loop} (h : SyncPace sync from_ g)
    (hbeside : Beside hasher sampler addr B g g') : SyncPace sync from_ g' := by
  cases hbeside with
  | tick d =>
    exact ⟨h.clock.trans (Nat.le_add_right _ d), h.near.trans (by simp only; omega),
      fun htimed => (h.due htimed).trans (Nat.le_add_right _ d), h.paced⟩
  | _ => exact ⟨h.clock, h.near, h.due, h.paced⟩

lemma turn_obeyed (h : Turn hasher sampler B sync g g') : g.obeyed <+: g'.obeyed := by
  cases h with
  | @take command rest _ _ =>
    rw [(obey_queue command (g.took command rest)).2.1]
    exact List.prefix_append _ _
  | _ => exact List.prefix_rfl

lemma beside_obeyed (h : Beside hasher sampler addr B g g') : g'.obeyed = g.obeyed := by
  cases h <;> rfl

lemma starts_take (command : NodeCommand) (rest : List NodeCommand) (g : Loop) :
    (obey command (g.took command rest)).starts = g.starts + (startsMining command).toNat := by
  obtain ⟨-, hobeyed, -⟩ := obey_queue command (g.took command rest)
  unfold Loop.starts
  rw [hobeyed]
  simp only [Loop.took, List.countP_append, List.countP_singleton]
  cases startsMining command <;> rfl

/-- A command sets a miner that may mine at once, or it leaves the time as it is. -/
lemma obey_mineAt (command : NodeCommand) (g : Loop) :
    (∃ config, command = .startMining config ∧ config.interval ≠ 0 ∧
        (obey command g).miner = some config ∧ (obey command g).nextMineAt = g.now) ∨
      (startsMining command = false ∧ (obey command g).nextMineAt = g.nextMineAt ∧
        ((obey command g).miner = g.miner ∨ (obey command g).miner = none)) := by
  cases command with
  | startMining config =>
    rcases startMining_cases config g with ⟨hzero, heq⟩ | ⟨hzero, heq⟩
    · exact .inr ⟨by simp [startsMining, hzero], by simp only [obey, heq],
        .inl (by simp only [obey, heq])⟩
    · exact .inl ⟨config, rfl, hzero, by simp only [obey, heq], by simp only [obey, heq]⟩
  | stopMining => exact .inr ⟨rfl, rfl, .inr rfl⟩
  | _ => exact .inr ⟨rfl, rfl, .inl rfl⟩

/-- Where no interval is shorter than `least`. A command that sets a miner lets the loop mine once
ahead of the timer. -/
structure MinePace (least : ℕ) (from_ g : Loop) : Prop where
  clock : from_.now ≤ g.now
  able : ∀ config, g.miner = some config → least ≤ config.interval
  set_ : g.stage.minesByTimer = true → g.miner.isSome
  bound : from_.now + g.timedMines * least + from_.starts * least ≤
    g.now + from_.timedMines * least + g.starts * least + least
  paced : from_.now + g.timedMines * least + from_.starts * least ≤
    max g.nextMineAt from_.now + from_.timedMines * least + g.starts * least +
      g.stage.minesByTimer.toNat * least

lemma minedNext_minesByTimer (timer : Bool) (g : Loop) :
    (minedNext timer g).stage.minesByTimer = false := by
  cases timer <;> rfl

lemma minedNext_nextMineAt {config : MinerConfig} (hminer : g.miner = some config) :
    (minedNext true g).nextMineAt = g.now + config.interval := by
  simp only [minedNext, hminer]

lemma MinePace.turn {least : ℕ} {from_ : Loop} (h : MinePace least from_ g)
    (hleast : ∀ config, NodeCommand.startMining config ∈ g'.obeyed → config.interval ≠ 0 →
      least ≤ config.interval)
    (hturn : Turn hasher sampler B sync g g') : MinePace least from_ g' := by
  have hclock := h.clock
  have hbound := h.bound
  have hpaced := h.paced
  cases hturn with
  | @take command rest hstage hqueue =>
    obtain ⟨hmines, -, hnow, -⟩ := obey_timed command (g.took command rest)
    obtain ⟨-, hnot⟩ := obey_notTimed (g := g.took command rest) command hstage
    have hstarts := starts_take command rest g
    have hnever : (obey command (g.took command rest)).stage.minesByTimer = true →
        (obey command (g.took command rest)).miner.isSome := by
      rw [hnot]
      exact fun hfalse => Bool.noConfusion hfalse
    have hidle : g.stage.minesByTimer = false := by rw [hstage]; rfl
    rw [hidle, Bool.toNat_false, Nat.zero_mul] at hpaced
    rcases obey_mineAt command (g.took command rest) with
      ⟨config, rfl, hzero, hminer, hnext⟩ | ⟨hno, hnext, hminer⟩
    · have hone : startsMining (.startMining config) = true := decide_eq_true hzero
      rw [hone, Bool.toNat_true] at hstarts
      have hmem : NodeCommand.startMining config ∈
          (obey (.startMining config) (g.took (.startMining config) rest)).obeyed := by
        rw [(obey_queue _ _).2.1]
        exact List.mem_append_right _ (List.mem_singleton_self _)
      refine ⟨hnow ▸ hclock, ?_, hnever, ?_, ?_⟩
      · intro config' hconfig'
        rw [hminer, Option.some.injEq] at hconfig'
        subst hconfig'
        exact hleast config hmem hzero
      · rw [hmines, hnow, hstarts, Nat.add_mul]
        simp only [Loop.took]
        omega
      · rw [hmines, hnext, hstarts, hnot, Nat.add_mul]
        simp only [Loop.took, Bool.toNat_false, Nat.zero_mul]
        omega
    · rw [hno, Bool.toNat_false, Nat.add_zero] at hstarts
      refine ⟨hnow ▸ hclock, ?_, hnever, ?_, ?_⟩
      · intro config hconfig
        rcases hminer with hsame | hnone
        · exact h.able config (hsame.symm.trans hconfig)
        · rw [hnone] at hconfig
          cases hconfig
      · rw [hmines, hnow, hstarts]
        exact hbound
      · rw [hmines, hnext, hstarts, hnot]
        simp only [Loop.took, Bool.toNat_false, Nat.zero_mul]
        exact hpaced
  | @broadcast timer _ _ hstage _ =>
    cases timer with
    | false =>
      rw [hstage] at hpaced
      exact ⟨hclock, h.able, fun hfalse => Bool.noConfusion hfalse, hbound, hpaced⟩
    | true =>
      obtain ⟨config, hconfig⟩ := Option.isSome_iff_exists.mp (h.set_ (by rw [hstage]; rfl))
      have hshort := h.able config hconfig
      refine ⟨hclock, h.able, fun hfalse => Bool.noConfusion hfalse, hbound, ?_⟩
      rw [minedNext_minesByTimer, Bool.toNat_false, Nat.zero_mul, minedNext_nextMineAt]
      swap
      · exact hconfig
      show from_.now + g.timedMines * least + from_.starts * least ≤
        max (g.now + config.interval) from_.now + from_.timedMines * least + g.starts * least + 0
      omega
  | @synced timer hstage =>
    rw [hstage] at hpaced
    refine ⟨hclock, h.able, ?_, hbound, ?_⟩
    · cases timer <;> exact fun hfalse => Bool.noConfusion hfalse
    · cases timer <;> exact hpaced
  | mineDue seed hstage hsome hdue =>
    have hidle : g.stage.minesByTimer = false := by rw [hstage]; rfl
    rw [hidle, Bool.toNat_false, Nat.zero_mul] at hpaced
    refine ⟨hclock, h.able, fun _ => hsome, ?_, ?_⟩
    · rw [Nat.add_mul, Nat.one_mul]
      show from_.now + (g.timedMines * least + least) + from_.starts * least ≤
        g.now + from_.timedMines * least + g.starts * least + least
      omega
    · rw [Nat.add_mul, Nat.one_mul]
      show from_.now + (g.timedMines * least + least) + from_.starts * least ≤
        max g.nextMineAt from_.now + from_.timedMines * least + g.starts * least + 1 * least
      omega
  | @mine _ _ timer _ _ hstage _ _ =>
    rw [hstage] at hpaced
    have hset := h.set_
    rw [hstage] at hset
    refine ⟨hclock, h.able, ?_, hbound, ?_⟩
    · cases timer
      · exact fun hfalse => Bool.noConfusion hfalse
      · exact hset
    · cases timer <;> exact hpaced
  | @announced timer _ _ hstage _ =>
    rw [hstage] at hpaced
    have hset := h.set_
    rw [hstage] at hset
    refine ⟨hclock, h.able, ?_, hbound, ?_⟩
    · cases timer
      · exact fun hfalse => Bool.noConfusion hfalse
      · exact hset
    · cases timer <;> exact hpaced
  | test hstage _ | leave hstage _ | drained hstage _ | mineWaits hstage _ | syncWaits hstage _
  | wake hstage _ | greeted _ _ hstage _ | syncDue hstage _ _ =>
    rw [hstage] at hpaced
    exact ⟨hclock, h.able, fun hfalse => Bool.noConfusion hfalse, hbound, hpaced⟩

lemma MinePace.beside {least : ℕ} {from_ : Loop} (h : MinePace least from_ g)
    (hbeside : Beside hasher sampler addr B g g') : MinePace least from_ g' := by
  have hbound := h.bound
  cases hbeside with
  | tick d =>
    refine ⟨h.clock.trans (Nat.le_add_right _ d), h.able, h.set_, ?_, h.paced⟩
    show from_.now + g.timedMines * least + from_.starts * least ≤
      g.now + d + from_.timedMines * least + g.starts * least + least
    omega
  | _ => exact ⟨h.clock, h.able, h.set_, h.bound, h.paced⟩

/-- The loop has no miner, and has not been given one. -/
def Silent (from_ g : Loop) : Prop :=
  from_.starts ≤ g.starts ∧
    (g.starts = from_.starts → g.miner = none ∧ g.timedMines = from_.timedMines)

lemma Silent.turn {from_ : Loop} (h : Silent from_ g)
    (hturn : Turn hasher sampler B sync g g') : Silent from_ g' := by
  obtain ⟨hle, hsilent⟩ := h
  cases hturn with
  | @take command rest hstage hqueue =>
    have hstarts := starts_take command rest g
    obtain ⟨hmines, -⟩ := obey_timed command (g.took command rest)
    refine ⟨hstarts ▸ hle.trans (Nat.le_add_right _ _), fun hsame => ?_⟩
    obtain ⟨hnone, hcount⟩ := hsilent (by omega)
    rcases obey_mineAt command (g.took command rest) with
      ⟨config, rfl, hzero, -, -⟩ | ⟨-, -, hminer⟩
    · have hone : startsMining (.startMining config) = true := decide_eq_true hzero
      rw [hone, Bool.toNat_true] at hstarts
      omega
    · refine ⟨?_, hmines.trans hcount⟩
      rcases hminer with hkept | hgone
      · exact hkept.trans hnone
      · exact hgone
  | mineDue seed _ hsome _ =>
    refine ⟨hle, fun hsame => ?_⟩
    rw [(hsilent hsame).1] at hsome
    cases hsome
  | _ => exact ⟨hle, hsilent⟩

lemma Silent.beside {from_ : Loop} (h : Silent from_ g)
    (hbeside : Beside hasher sampler addr B g g') : Silent from_ g' := by
  cases hbeside <;> exact h

lemma run_syncPace {from_ : Loop} {n : ℕ} (h : SyncPace sync from_ from_)
    (hrun : Run hasher sampler addr B sync from_ n g) : SyncPace sync from_ g := by
  induction hrun with
  | start => exact h
  | turn _ hturn ih => exact ih.turn hturn
  | beside _ hbeside ih => exact ih.beside hbeside

lemma run_minePace {least : ℕ} {from_ : Loop} {n : ℕ} (h : MinePace least from_ from_)
    (hrun : Run hasher sampler addr B sync from_ n g)
    (hleast : ∀ config, NodeCommand.startMining config ∈ g.obeyed → config.interval ≠ 0 →
      least ≤ config.interval) : MinePace least from_ g := by
  induction hrun with
  | start => exact h
  | turn _ hturn ih =>
    exact (ih fun config hmem => hleast config ((turn_obeyed hturn).mem hmem)).turn hleast hturn
  | beside _ hbeside ih =>
    rw [beside_obeyed hbeside] at hleast
    exact (ih hleast).beside hbeside

lemma run_silent {from_ : Loop} {n : ℕ} (hnone : from_.miner = none)
    (hrun : Run hasher sampler addr B sync from_ n g) : Silent from_ g := by
  induction hrun with
  | start => exact ⟨le_refl _, fun _ => ⟨hnone, rfl⟩⟩
  | turn _ hturn ih => exact ih.turn hturn
  | beside _ hbeside ih => exact ih.beside hbeside

/-- What holds from the beginning on, whatever the times of the past are. -/
structure Steady (sync : SyncConfig) (g : Loop) : Prop where
  near : g.nextSyncAt ≤ g.now + sync.interval
  due : g.stage.syncsByTimer = true → g.nextSyncAt ≤ g.now
  set_ : g.stage.minesByTimer = true → g.miner.isSome

lemma run_steady {node : NodeState} {miner : Option MinerConfig} {now n : ℕ}
    (hrun : Run hasher sampler addr B sync (begun node miner now) n g) : Steady sync g := by
  have hsync : SyncPace sync (begun node miner now) (begun node miner now) :=
    ⟨le_refl _, Nat.le_add_right _ _, fun hfalse => Bool.noConfusion hfalse, by
      simp only [begun, Stage.syncsByTimer, Bool.toNat_false, Nat.zero_mul]; omega⟩
  have hmine : MinePace 0 (begun node miner now) (begun node miner now) :=
    ⟨le_refl _, fun _ _ => Nat.zero_le _, fun hfalse => Bool.noConfusion hfalse, by simp, by simp⟩
  obtain ⟨-, hnear, hdue, -⟩ := run_syncPace hsync hrun
  obtain ⟨-, -, hset, -, -⟩ := run_minePace hmine hrun fun _ _ _ => Nat.zero_le _
  exact ⟨hnear, hdue, hset⟩

/-- **The timers keep their pace**, in every stretch of every run. Between two syncs that the timer
starts lies the interval, counted from the end of the first; the timer mines at the pace of the
miner, and once ahead of it for each command that has set a miner; and without a miner it does not
mine. -/
theorem loop_keeps_pace (hasher : HashPort) (sampler : SamplingPort) (addr : AddrText)
    (B : Block → Prop) (sync : SyncConfig) (least : ℕ) {node : NodeState}
    {miner : Option MinerConfig} {now m n : ℕ} {g g' : Loop}
    (hbefore : Run hasher sampler addr B sync (begun node miner now) m g)
    (hrun : Run hasher sampler addr B sync g n g')
    (hminer : ∀ config, g.miner = some config → least ≤ config.interval)
    (hleast : ∀ config, NodeCommand.startMining config ∈ g'.obeyed → config.interval ≠ 0 →
      least ≤ config.interval) :
    g.now + g'.timedSyncs * sync.interval ≤ g'.now + (g.timedSyncs + 1) * sync.interval ∧
      g.now + (g'.timedMines + g.starts) * least ≤
        g'.now + (g.timedMines + g'.starts + 1) * least ∧
      (g.miner = none → g'.starts = g.starts →
        g'.miner = none ∧ g'.timedMines = g.timedMines) := by
  have hsteady := run_steady hbefore
  have hsync : SyncPace sync g g := ⟨le_refl _, hsteady.near, hsteady.due, by omega⟩
  have hmine : MinePace least g g := ⟨le_refl _, hminer, hsteady.set_, by omega, by omega⟩
  have hbound := (run_minePace hmine hrun hleast).bound
  refine ⟨(run_syncPace hsync hrun).bound, ?_, fun hnone => (run_silent hnone hrun).2⟩
  simp only [Nat.add_mul, Nat.one_mul]
  omega

theorem loop_keeps_pace_busy :
    ∃ g : Loop, g.timedSyncs = 2 ∧ g.timedMines = 2 ∧
      0 + g.timedSyncs * (5 * second) ≤ g.now + 1 * (5 * second) ∧
      0 + (g.timedMines + 0) * (5 * second) ≤ g.now + 1 * (5 * second) := by
  obtain ⟨node, hbefore, hactive, hchoice⟩ := busy_begins
  obtain ⟨g, hrun, -, hobeyed, hmines, hsyncs, -⟩ := busy_ends hactive hchoice
  have hminer : ∀ config, busyMiner = some config → 5 * second ≤ config.interval := by
    intro config hconfig
    rw [busyMiner, Option.some.injEq] at hconfig
    rw [← hconfig]
  have hstarts : ∀ config, NodeCommand.startMining config ∈ g.obeyed → config.interval ≠ 0 →
      5 * second ≤ config.interval := by
    intro config hconfig
    rw [hobeyed] at hconfig
    simp at hconfig
  obtain ⟨hsync, hmine, -⟩ := loop_keeps_pace toyHash deterministicSampler
    ⟨fun _ => [], fun _ => none⟩ (· ∈ busyBlocks) SyncConfig.default (5 * second) Run.start
    (hbefore.trans hrun) hminer hstarts
  have hnone : g.starts = 0 := by
    rw [Loop.starts, hobeyed]
    rfl
  rw [hnone] at hmine
  exact ⟨g, hsyncs, hmines, hsync, hmine⟩

/-! ### The end -/

lemma obey_flag (command : NodeCommand) (hflag : g.flag = true) : (obey command g).flag = true := by
  cases command with
  | startMining config =>
    rcases startMining_cases config g with ⟨-, heq⟩ | ⟨-, heq⟩ <;> simp only [obey, heq, hflag]
  | stop => rfl
  | _ => exact hflag

lemma turn_flag (h : Turn hasher sampler B sync g g') (hflag : g.flag = true) :
    g'.flag = true := by
  cases h with
  | @take command rest _ _ => exact obey_flag command hflag
  | _ => exact hflag

lemma obey_weight (command : NodeCommand) (hstage : g.stage = .draining) :
    9 ≤ (obey command g).stage.weight ∧ (obey command g).stage.weight ≤ 12 := by
  cases command with
  | addPeer peer =>
    show 9 ≤ (if (addPeer peer g.node).1 then Stage.greeting else Stage.draining).weight ∧
      (if (addPeer peer g.node).1 then Stage.greeting else Stage.draining).weight ≤ 12
    split <;> decide
  | startMining config =>
    rcases startMining_cases config g with ⟨-, heq⟩ | ⟨-, heq⟩ <;>
      simp only [obey, heq, hstage] <;> decide
  | stopMining =>
    show 9 ≤ g.stage.weight ∧ g.stage.weight ≤ 12
    rw [hstage]
    decide
  | stop =>
    show 9 ≤ g.stage.weight ∧ g.stage.weight ≤ 12
    rw [hstage]
    decide
  | mineOnce _ _ => exact ⟨by simp [obey, Stage.weight], le_refl _⟩
  | syncOnce => exact ⟨by simp [obey, Stage.weight], by simp [obey, Stage.weight]⟩

/-- What winding down has left to do: steps, minings and syncs by the timers, commands. -/
structure Winding (from_ : Loop) (n : ℕ) (g : Loop) : Prop where
  flag : g.flag = true
  steps : n + g.left + 4 * from_.sent.length ≤ from_.left + 4 * g.sent.length
  mines : g.timedMines + (decide (8 ≤ g.stage.weight)).toNat ≤ from_.timedMines + 1
  syncs : g.timedSyncs + (decide (4 ≤ g.stage.weight)).toNat ≤ from_.timedSyncs + 1
  done : from_.stage.weight < 9 → g.stage.weight < 9 ∧ g.obeyed = from_.obeyed

lemma Winding.moved {from_ : Loop} {n : ℕ} (h : Winding from_ n g) (hflag : g'.flag = true)
    (hqueue : g'.sent = g.sent ∧ g'.commands = g.commands ∧ g'.obeyed = g.obeyed)
    (hless : g'.stage.weight < g.stage.weight)
    (htimed : g'.timedMines + (decide (8 ≤ g'.stage.weight)).toNat ≤
        g.timedMines + (decide (8 ≤ g.stage.weight)).toNat ∧
      g'.timedSyncs + (decide (4 ≤ g'.stage.weight)).toNat ≤
        g.timedSyncs + (decide (4 ≤ g.stage.weight)).toNat) : Winding from_ (n + 1) g' := by
  obtain ⟨hsent, hcommands, hobeyed⟩ := hqueue
  have hsteps := h.steps
  unfold Loop.left at hsteps
  refine ⟨hflag, ?_, htimed.1.trans h.mines, htimed.2.trans h.syncs, fun hlt => ?_⟩
  · unfold Loop.left
    rw [hsent, hcommands]
    omega
  · obtain ⟨hbelow, hdone⟩ := h.done hlt
    exact ⟨hless.trans hbelow, hobeyed.trans hdone⟩

/-- **Each step of the loop brings it nearer to its end.** -/
theorem Winding.turn {from_ : Loop} {n : ℕ} (h : Winding from_ n g)
    (hturn : Turn hasher sampler B sync g g') : Winding from_ (n + 1) g' := by
  have hflag := turn_flag hturn h.flag
  cases hturn with
  | test hstage hclear =>
    rw [h.flag] at hclear
    cases hclear
  | @take command rest hstage hqueue =>
    obtain ⟨hlow, hhigh⟩ := obey_weight (g := g.took command rest) command hstage
    obtain ⟨hsent, -, hcommands⟩ := obey_queue command (g.took command rest)
    obtain ⟨htimedMines, htimedSyncs, -⟩ := obey_timed command (g.took command rest)
    have hweight : g.stage.weight = 9 := by rw [hstage]; rfl
    have hlength : g.commands.length = rest.length + 1 := by rw [hqueue, List.length_cons]
    have hsteps := h.steps
    have hmines := h.mines
    have hsyncs := h.syncs
    unfold Loop.left at hsteps
    refine ⟨hflag, ?_, ?_, ?_, fun hlt => absurd (h.done hlt).1 (by omega)⟩
    · have hsent' : (obey command (g.took command rest)).sent = g.sent := hsent
      have hcommands' : (obey command (g.took command rest)).commands = rest := hcommands
      unfold Loop.left
      rw [hsent', hcommands']
      omega
    · rw [htimedMines, decide_eq_true (by omega : 8 ≤ _)]
      rwa [hweight] at hmines
    · rw [htimedSyncs, decide_eq_true (by omega : 4 ≤ _)]
      rwa [hweight] at hsyncs
  | @mine _ _ timer _ _ hstage _ _ | @announced timer _ _ hstage _ | @broadcast timer _ _ hstage _
  | @synced timer hstage =>
    cases timer <;>
      exact h.moved hflag ⟨rfl, rfl, rfl⟩
        (by simp [hstage, minedNext, syncedNext, Stage.weight])
        (by simp [hstage, minedNext, syncedNext, Stage.weight])
  | leave hstage _ | drained hstage _ | greeted _ _ hstage _ | mineDue _ hstage _ _
  | mineWaits hstage _ | syncDue hstage _ _ | syncWaits hstage _ | wake hstage _ =>
    exact h.moved hflag ⟨rfl, rfl, rfl⟩ (by simp [hstage, Stage.weight])
      (by simp [hstage, Stage.weight])

lemma Winding.beside {from_ : Loop} {n : ℕ} (h : Winding from_ n g)
    (hbeside : Beside hasher sampler addr B g g') : Winding from_ n g' := by
  have hsteps := h.steps
  cases hbeside with
  | send command =>
    refine ⟨h.flag, ?_, h.mines, h.syncs, h.done⟩
    unfold Loop.left at hsteps ⊢
    simp only [List.length_append, List.length_singleton]
    omega
  | raise => exact ⟨rfl, h.steps, h.mines, h.syncs, h.done⟩
  | _ => exact ⟨h.flag, h.steps, h.mines, h.syncs, h.done⟩

end Chesscoin.LoopPace

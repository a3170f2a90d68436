import Chesscoin.Lib.Leases
import Chesscoin.Heads
import Chesscoin.Operations
import Chesscoin.Replay

/-!
Nodes that are started on the data directories of one machine.

A node locks its data directory by creating a file in it, which fails when the file is there, and
only then loads the log; it removes the file when it cannot load the log or when it is shut down.
A process that is killed leaves the file behind, and an operator may remove a file after having
looked that no node runs. All nodes of a directory append to one log; what one of them reads is
what the last one has written, so they behave as one node that is restarted now and then.
-/

namespace Chesscoin.StorageLock

open Chesscoin.Lib.Leases Chesscoin.Lib.Text Chesscoin.Domain Chesscoin.Simulator
  Chesscoin.Validation Chesscoin.Mining Chesscoin.ForkChoice Chesscoin.ForkTree Chesscoin.Wire
  Chesscoin.Config Chesscoin.Storage Chesscoin.Runtime Chesscoin.Runs Chesscoin.Serving
  Chesscoin.Operations Chesscoin.NodeLog Chesscoin.Replay Chesscoin.ActiveView
  Chesscoin.LocalMining Chesscoin.WorkScores Chesscoin.Heads Chesscoin.LogReplay
  Chesscoin.Adapters

/-! ### The lock file -/

/-- What the system answers when the directory and the lock file are created: an error each, or
none. A file that exists already is an error of its own. -/
structure LockIo where
  directory : Option Str
  file : Option Str

inductive LockError
  | directory (error : Str)
  | file (error : Str)
  /-- Another node may be using the directory. -/
  | exists_

/-- With the presence of the lock file after it. -/
def acquireStorageLock (io : LockIo) (lockFile : Bool) : Except LockError Unit × Bool :=
  match io.directory with
  | some e => (.error (.directory e), lockFile)
  | none =>
    if lockFile then (.error .exists_, lockFile)
    else match io.file with
      | some e => (.error (.file e), lockFile)
      | none => (.ok (), true)

/-- Dropping a lock removes its file, if that can be done. -/
def dropStorageLock (removed : Bool) (lockFile : Bool) : Bool :=
  if removed then false else lockFile

/-! ### Processes -/

/-- A process that holds the lock of a directory: it is about to load the log, or it serves. -/
inductive Phase
  | loading (config : NodeConfig) (boundAddr : SocketAddr)
  | running (st : NodeState)

structure Process (Dir : Type) where
  dir : Dir
  phase : Phase

/-- The directories, each with its lock file and its log, and the processes. -/
structure World (Pid Dir : Type) where
  lockFile : Dir → Bool
  disk : Dir → Disk
  process : Pid → Option (Process Dir)

section

variable {Pid Dir : Type} [DecidableEq Pid] [DecidableEq Dir]

/-- A process ends, and what it has locked is unlocked if its file can be removed. -/
def World.ended (w : World Pid Dir) (pid : Pid) (dir : Dir) (removed : Bool) : World Pid Dir :=
  { w with
    lockFile := Function.update w.lockFile dir (dropStorageLock removed (w.lockFile dir))
    process := Function.update w.process pid none }

variable (hasher : HashPort) (sampler : SamplingPort) (addr : AddrText) (B : Block → Prop)
  (chainOf : Dir → ChainConfig)

/-- What happens on the machine, when the nodes of a directory are given one chain configuration.
A running node reads and writes the log that is in its directory. -/
inductive WorldStep : World Pid Dir → World Pid Dir → Prop
  | acquire {w : World Pid Dir} {config : NodeConfig} {io : LockIo} {lockFile : Bool} (pid : Pid)
      (dir : Dir) (boundAddr : SocketAddr) : w.process pid = none → config.storage.isSome →
      validateNodeConfig addr config = .ok () → config.chain = chainOf dir →
      acquireStorageLock io (w.lockFile dir) = (.ok (), lockFile) →
      WorldStep w { w with
        lockFile := Function.update w.lockFile dir lockFile
        process := Function.update w.process pid (some ⟨dir, .loading config boundAddr⟩) }
  | load {w : World Pid Dir} {config : NodeConfig} {boundAddr : SocketAddr} {st : NodeState}
      (pid : Pid) (dir : Dir) : w.process pid = some ⟨dir, .loading config boundAddr⟩ →
      startNode hasher sampler addr config boundAddr (some (w.disk dir)) = .ok st →
      WorldStep w { w with process := Function.update w.process pid (some ⟨dir, .running st⟩) }
  | loadFails {w : World Pid Dir} {config : NodeConfig} {boundAddr : SocketAddr}
      {error : StartError} (pid : Pid) (dir : Dir) (removed : Bool) :
      w.process pid = some ⟨dir, .loading config boundAddr⟩ →
      startNode hasher sampler addr config boundAddr (some (w.disk dir)) = .error error →
      WorldStep w (w.ended pid dir removed)
  | operate {w : World Pid Dir} {st st' : NodeState} {event : Event} {disk : Disk} (pid : Pid)
      (dir : Dir) : w.process pid = some ⟨dir, .running st⟩ →
      NodeStep hasher sampler addr B { st with storage := some (w.disk dir) } event st' →
      st'.storage = some disk →
      WorldStep w { w with
        disk := Function.update w.disk dir disk
        process := Function.update w.process pid (some ⟨dir, .running st'⟩) }
  | stop {w : World Pid Dir} {st : NodeState} (pid : Pid) (dir : Dir) (removed : Bool) :
      w.process pid = some ⟨dir, .running st⟩ → WorldStep w (w.ended pid dir removed)
  /-- A process is killed between two of its operations. -/
  | kill {w : World Pid Dir} {process : Process Dir} (pid : Pid) :
      w.process pid = some process →
      WorldStep w { w with process := Function.update w.process pid none }
  /-- An operator removes a lock file, after having looked for processes. -/
  | clear {w : World Pid Dir} (dir : Dir) :
      (∀ pid process, w.process pid = some process → process.dir ≠ dir) →
      WorldStep w { w with lockFile := Function.update w.lockFile dir false }

end

/-! ### Locks as leases -/

/-- The lock was free, and now there is a file. -/
lemma acquireStorageLock_ok {io : LockIo} {before after : Bool}
    (h : acquireStorageLock io before = (.ok (), after)) : before = false ∧ after = true := by
  unfold acquireStorageLock at h
  split at h
  · cases h
  · split at h
    · cases h
    · next hfree =>
      split at h
      · cases h
      · cases h
        exact ⟨Bool.eq_false_iff.mpr hfree, rfl⟩

variable {Pid Dir : Type} {hasher : HashPort} {sampler : SamplingPort} {addr : AddrText}
  {B : Block → Prop} {chainOf : Dir → ChainConfig} {w w' w'' : World Pid Dir}
  {st st' : NodeState}

/-- The directory a process has locked. -/
def World.holds (w : World Pid Dir) (pid : Pid) : Option Dir := (w.process pid).map Process.dir

def World.leases (w : World Pid Dir) : Ledger Pid Dir := ⟨w.lockFile, w.holds⟩

lemma holds_of_process {pid : Pid} {process : Process Dir} (h : w.process pid = some process) :
    w.holds pid = some process.dir := by
  rw [World.holds, h]
  rfl

variable [DecidableEq Pid]

lemma holds_update (lockFile : Dir → Bool) (disk : Dir → Disk) (pid : Pid)
    (process : Option (Process Dir)) :
    (World.mk lockFile disk (Function.update w.process pid process)).holds =
      Function.update w.holds pid (process.map Process.dir) := by
  funext pid'
  unfold World.holds
  by_cases h : pid' = pid
  · subst h
    simp only [Function.update_self]
  · simp only [Function.update_of_ne h]

/-- A process that goes on in its directory holds what it has held. -/
lemma holds_again {pid : Pid} {dir : Dir} {before : Phase} (after : Phase)
    (lockFile : Dir → Bool) (disk : Dir → Disk) (h : w.process pid = some ⟨dir, before⟩) :
    (World.mk lockFile disk (Function.update w.process pid (some ⟨dir, after⟩))).holds =
      w.holds := by
  have hheld : w.holds pid = some dir := holds_of_process h
  rw [holds_update, Option.map_some, ← hheld, Function.update_eq_self]

variable [DecidableEq Dir]

/-- A process that ends gives its lock back, or vanishes. -/
lemma ended_step {pid : Pid} {process : Process Dir} (removed : Bool)
    (h : w.process pid = some process) :
    Lib.Leases.Step w.leases (w.ended pid process.dir removed).leases := by
  have hheld := holds_of_process h
  unfold World.leases World.ended
  rw [holds_update, Option.map_none]
  cases removed with
  | true => exact .giveBack (s := w.leases) pid process.dir hheld
  | false =>
    have hsame : Function.update w.lockFile process.dir
        (dropStorageLock false (w.lockFile process.dir)) = w.lockFile :=
      Function.update_eq_self process.dir w.lockFile
    rw [hsame]
    exact .vanish (s := w.leases) pid process.dir hheld

/-- **The machine moves leases**, or leaves them as they are. -/
theorem WorldStep.leases (h : WorldStep hasher sampler addr B chainOf w w') :
    w'.leases = w.leases ∨ Lib.Leases.Step w.leases w'.leases := by
  cases h with
  | acquire pid dir boundAddr hfree _ _ _ hlock =>
    obtain ⟨hunlocked, rfl⟩ := acquireStorageLock_ok hlock
    right
    unfold World.leases
    rw [holds_update, Option.map_some]
    refine .take (s := w.leases) pid dir ?_ hunlocked
    show w.holds pid = none
    rw [World.holds, hfree, Option.map_none]
  | load pid dir hprocess _ =>
    left
    unfold World.leases
    rw [holds_again _ _ _ hprocess]
  | loadFails pid dir removed hprocess _ => exact .inr (ended_step removed hprocess)
  | operate pid dir hprocess _ _ =>
    left
    unfold World.leases
    rw [holds_again _ _ _ hprocess]
  | stop pid dir removed hprocess => exact .inr (ended_step removed hprocess)
  | kill pid hprocess =>
    right
    unfold World.leases
    rw [holds_update, Option.map_none]
    exact .vanish (s := w.leases) pid _ (holds_of_process hprocess)
  | clear dir hnobody =>
    right
    refine .clear (s := w.leases) dir fun pid hheld => ?_
    obtain ⟨process, hprocess, hdir⟩ := Option.map_eq_some_iff.mp hheld
    exact hnobody pid process hprocess hdir

/-! ### What a process sees -/

/-- A directory's processes are alone in it, are given its chain configuration, and see its log. -/
structure Isolated (chainOf : Dir → ChainConfig) (w : World Pid Dir) : Prop where
  exclusive : Exclusive w.lockFile w.holds
  chain : ∀ pid dir config boundAddr,
    w.process pid = some ⟨dir, .loading config boundAddr⟩ → config.chain = chainOf dir
  view : ∀ pid dir st, w.process pid = some ⟨dir, .running st⟩ →
    st.storage = some (w.disk dir) ∧ Configured (chainOf dir) st

omit [DecidableEq Pid] [DecidableEq Dir] in
lemma Isolated.alone (h : Isolated chainOf w) {pid pid' : Pid} {process process' : Process Dir}
    (hprocess : w.process pid = some process) (hprocess' : w.process pid' = some process')
    (hdir : process.dir = process'.dir) : pid = pid' :=
  h.exclusive.alone pid pid' process.dir (holds_of_process hprocess)
    (hdir ▸ holds_of_process hprocess')

omit [DecidableEq Pid] [DecidableEq Dir] in
lemma isolated_idle (h : ∀ pid, w.process pid = none) : Isolated chainOf w := by
  refine ⟨.idle fun pid => by rw [World.holds, h pid, Option.map_none], ?_, ?_⟩
  · intro pid dir config boundAddr hprocess
    rw [h pid] at hprocess
    cases hprocess
  · intro pid dir st hprocess
    rw [h pid] at hprocess
    cases hprocess

omit [DecidableEq Pid] [DecidableEq Dir] in
/-- Processes that end take nothing away from others. -/
lemma Isolated.fewer (h : Isolated chainOf w) (hexclusive : Exclusive w'.lockFile w'.holds)
    (hdisk : w'.disk = w.disk)
    (hfewer : ∀ pid process, w'.process pid = some process → w.process pid = some process) :
    Isolated chainOf w' := by
  refine ⟨hexclusive, fun pid dir config boundAddr hprocess =>
    h.chain pid dir config boundAddr (hfewer pid _ hprocess), fun pid dir st hprocess => ?_⟩
  rw [hdisk]
  exact h.view pid dir st (hfewer pid _ hprocess)

/-- A node that has loaded a log has the configuration it was given. -/
lemma startNode_configured {config : NodeConfig} {boundAddr : SocketAddr} {disk : Disk}
    (h : startNode hasher sampler addr config boundAddr (some disk) = .ok st) :
    st.storage = some disk ∧ Configured config.chain st ∧
      initialChains hasher sampler addr config.chain (some disk) =
        .ok (st.chain, st.forkChoice) := by
  obtain ⟨hstorage, hload⟩ := startNode_ok h
  refine ⟨hstorage, ?_, hstorage ▸ hload⟩
  have htext : ∃ text, logText st = some text := by
    rw [logText, hstorage, Option.bind_some]
    rw [hstorage] at hload
    cases hfile : disk.file with
    | none => exact ⟨[], fromUtf8_utf8 []⟩
    | some bytes =>
      cases hutf : fromUtf8 bytes with
      | none =>
        rw [initialChains] at hload
        simp only [loadChains, hfile, hutf] at hload
        cases hload
      | some content => exact ⟨content, hutf⟩
  obtain ⟨text, htext⟩ := htext
  exact configured_of_initialChains htext hload

lemma nodeStep_configured {config : ChainConfig} {event : Event}
    (h : NodeStep hasher sampler addr B st event st') (hconfig : Configured config st) :
    Configured config st' :=
  run_keeps (P := Configured config) (fun _ _ hkept hmove => Move.configured hmove hkept)
    (.single h.step) hconfig

/-- **A step leaves every process alone with its log.** -/
theorem Isolated.step (h : Isolated chainOf w)
    (hstep : WorldStep hasher sampler addr B chainOf w w') : Isolated chainOf w' := by
  have hexclusive : Exclusive w'.lockFile w'.holds := by
    rcases hstep.leases with hsame | hlease
    · have hlock : w'.lockFile = w.lockFile := congrArg Ledger.marked hsame
      have hholds : w'.holds = w.holds := congrArg Ledger.held hsame
      rw [hlock, hholds]
      exact h.exclusive
    · exact Exclusive.step (s := w.leases) h.exclusive hlease
  cases hstep with
  | acquire pid dir boundAddr hfree _ _ hchain _ =>
    refine ⟨hexclusive, ?_, ?_⟩
    · intro pid' dir' config' boundAddr' hprocess
      rcases of_update hprocess with ⟨-, hnew⟩ | ⟨-, hold⟩
      · cases hnew
        exact hchain
      · exact h.chain pid' dir' config' boundAddr' hold
    · intro pid' dir' st' hprocess
      rcases of_update hprocess with ⟨-, hnew⟩ | ⟨-, hold⟩
      · cases hnew
      · exact h.view pid' dir' st' hold
  | load pid dir hloading hstart =>
    refine ⟨hexclusive, ?_, ?_⟩
    · intro pid' dir' config' boundAddr' hprocess
      rcases of_update hprocess with ⟨-, hnew⟩ | ⟨-, hold⟩
      · cases hnew
      · exact h.chain pid' dir' config' boundAddr' hold
    · intro pid' dir' st' hprocess
      rcases of_update hprocess with ⟨-, hnew⟩ | ⟨-, hold⟩
      · cases hnew
        obtain ⟨hstorage, hconfig, -⟩ := startNode_configured hstart
        exact ⟨hstorage, h.chain pid dir _ _ hloading ▸ hconfig⟩
      · exact h.view pid' dir' st' hold
  | operate pid dir hrunning hop hdisk =>
    refine ⟨hexclusive, ?_, ?_⟩
    · intro pid' dir' config' boundAddr' hprocess
      rcases of_update hprocess with ⟨-, hnew⟩ | ⟨-, hold⟩
      · cases hnew
      · exact h.chain pid' dir' config' boundAddr' hold
    · intro pid' dir' st' hprocess
      rcases of_update hprocess with ⟨-, hnew⟩ | ⟨hne, hold⟩
      · cases hnew
        refine ⟨?_, ?_⟩
        · simp only [hdisk, Function.update_self]
        · obtain ⟨hchain, hfc⟩ := (h.view pid dir _ hrunning).2
          exact nodeStep_configured hop ⟨hchain, hfc⟩
      · have hother : dir' ≠ dir := fun heq => hne (h.alone hold hrunning heq)
        refine ⟨?_, (h.view pid' dir' st' hold).2⟩
        simp only [(h.view pid' dir' st' hold).1, Function.update_of_ne hother]
  | loadFails pid dir removed _ _ => exact h.fewer hexclusive rfl fun _ _ hp => (held_of_drop hp).2
  | stop pid dir removed _ => exact h.fewer hexclusive rfl fun _ _ hp => (held_of_drop hp).2
  | kill pid _ => exact h.fewer hexclusive rfl fun _ _ hp => (held_of_drop hp).2
  | clear dir _ => exact h.fewer hexclusive rfl fun _ _ hp => hp

lemma Isolated.run (h : Isolated chainOf w)
    (hrun : Relation.ReflTransGen (WorldStep hasher sampler addr B chainOf) w w') :
    Isolated chainOf w' := by
  induction hrun with
  | refl => exact h
  | tail _ hstep ih => exact ih.step hstep

/-! ### One node after the other -/

/-- The log of a directory is that of a node which has come from `st` by its own operations and by
restarts, and a process that serves the directory is that node. -/
def Descends (hasher : HashPort) (sampler : SamplingPort) (addr : AddrText) (B : Block → Prop)
    (chainOf : Dir → ChainConfig) (dir : Dir) (st : NodeState) (w : World Pid Dir) : Prop :=
  ∃ last, Relation.ReflTransGen (Serve hasher sampler addr B) st last ∧
    last.storage = some (w.disk dir) ∧ Configured (chainOf dir) last ∧
    ∀ pid st', w.process pid = some ⟨dir, .running st'⟩ → st' = last

/-- **A step continues the node of a directory**, or restarts it. -/
theorem Descends.step {dir : Dir} (hdesc : Descends hasher sampler addr B chainOf dir st w)
    (h : Isolated chainOf w) (hstep : WorldStep hasher sampler addr B chainOf w w') :
    Descends hasher sampler addr B chainOf dir st w' := by
  obtain ⟨last, hserve, hstorage, hconfig, hlast⟩ := hdesc
  cases hstep with
  | acquire pid _ _ _ _ _ _ _ =>
    refine ⟨last, hserve, hstorage, hconfig, fun pid' st' hprocess => ?_⟩
    rcases of_update hprocess with ⟨-, hnew⟩ | ⟨-, hold⟩
    · cases hnew
    · exact hlast pid' st' hold
  | @load config boundAddr loaded pid dir' hloading hstart =>
    by_cases hdir : dir' = dir
    · subst hdir
      obtain ⟨hstorage', hconfig', hload⟩ := startNode_configured hstart
      have hchain : config.chain = chainOf dir' := h.chain pid dir' config boundAddr hloading
      have hrestart : Serve hasher sampler addr B last loaded := by
        refine .restart (hstorage'.trans hstorage.symm) ?_
        rw [hstorage, hconfig.chain, ← hchain]
        exact hload
      rw [hchain] at hconfig'
      refine ⟨loaded, hserve.tail hrestart, hstorage', hconfig', fun pid' st' hprocess => ?_⟩
      rcases of_update hprocess with ⟨-, hnew⟩ | ⟨hne, hold⟩
      · cases hnew
        rfl
      · exact absurd (h.alone hold hloading rfl) hne
    · refine ⟨last, hserve, hstorage, hconfig, fun pid' st' hprocess => ?_⟩
      rcases of_update hprocess with ⟨-, hnew⟩ | ⟨-, hold⟩
      · cases hnew
        exact absurd rfl hdir
      · exact hlast pid' st' hold
  | @operate before after event disk pid dir' hrunning hop hdisk =>
    by_cases hdir : dir' = dir
    · subst hdir
      have hbefore := (h.view pid dir' before hrunning).1
      obtain rfl := hlast pid before hrunning
      rw [← hbefore] at hop
      refine ⟨after, hserve.tail (.step hop.step), ?_, nodeStep_configured hop hconfig, ?_⟩
      · simp only [hdisk, Function.update_self]
      · intro pid' st' hprocess
        rcases of_update hprocess with ⟨-, hnew⟩ | ⟨hne, hold⟩
        · cases hnew
          rfl
        · exact absurd (h.alone hold hrunning rfl) hne
    · refine ⟨last, hserve, ?_, hconfig, fun pid' st' hprocess => ?_⟩
      · simp only [hstorage, Function.update_of_ne (Ne.symm hdir)]
      · rcases of_update hprocess with ⟨-, hnew⟩ | ⟨-, hold⟩
        · cases hnew
          exact absurd rfl hdir
        · exact hlast pid' st' hold
  | loadFails pid _ removed _ _ =>
    exact ⟨last, hserve, hstorage, hconfig,
      fun pid' st' hprocess => hlast pid' st' (held_of_drop hprocess).2⟩
  | stop pid _ removed _ =>
    exact ⟨last, hserve, hstorage, hconfig,
      fun pid' st' hprocess => hlast pid' st' (held_of_drop hprocess).2⟩
  | kill pid _ =>
    exact ⟨last, hserve, hstorage, hconfig,
      fun pid' st' hprocess => hlast pid' st' (held_of_drop hprocess).2⟩
  | clear _ _ => exact ⟨last, hserve, hstorage, hconfig, hlast⟩

lemma Descends.run {dir : Dir} (hdesc : Descends hasher sampler addr B chainOf dir st w)
    (h : Isolated chainOf w)
    (hrun : Relation.ReflTransGen (WorldStep hasher sampler addr B chainOf) w w') :
    Descends hasher sampler addr B chainOf dir st w' := by
  induction hrun with
  | refl => exact hdesc
  | tail hbefore hstep ih => exact ih.step (h.run hbefore) hstep

/-- A node that serves a directory is one that a later node of the directory comes from. -/
lemma serve_of_run {dir : Dir} {pid pid' : Pid} (h : Isolated chainOf w)
    (hprocess : w.process pid = some ⟨dir, .running st⟩)
    (hrun : Relation.ReflTransGen (WorldStep hasher sampler addr B chainOf) w w')
    (hprocess' : w'.process pid' = some ⟨dir, .running st'⟩) :
    Relation.ReflTransGen (Serve hasher sampler addr B) st st' := by
  obtain ⟨hview, hconfig⟩ := h.view pid dir st hprocess
  have hdesc : Descends hasher sampler addr B chainOf dir st w := by
    refine ⟨st, .refl, hview, hconfig, fun pid₂ st₂ hprocess₂ => ?_⟩
    obtain rfl := h.alone hprocess₂ hprocess rfl
    rw [hprocess] at hprocess₂
    cases hprocess₂
    rfl
  obtain ⟨last, hserve, -, -, hlast⟩ := hdesc.run h hrun
  rw [hlast pid' st' hprocess']
  exact hserve

/-- A lock file that no process stands behind was there at the beginning, or a process has ended
without removing it. -/
lemma stale_of_run {dir : Dir}
    (hrun : Relation.ReflTransGen (WorldStep hasher sampler addr B chainOf) w w')
    (hstale : Stale w'.leases dir) :
    Stale w.leases dir ∨ ∃ w₁ w₂ pid process,
      Relation.ReflTransGen (WorldStep hasher sampler addr B chainOf) w w₁ ∧
      WorldStep hasher sampler addr B chainOf w₁ w₂ ∧
      Relation.ReflTransGen (WorldStep hasher sampler addr B chainOf) w₂ w' ∧
      w₁.process pid = some process ∧ process.dir = dir ∧
      w₂.process pid = none ∧ w₂.lockFile dir = true := by
  induction hrun with
  | refl => exact .inl hstale
  | @tail w₁ w₂ hbefore hstep ih =>
    have hmoved : Stale w₁.leases dir ∨ ∃ pid, w₁.holds pid = some dir ∧
        w₂.leases = ⟨w₁.lockFile, Function.update w₁.holds pid none⟩ := by
      rcases hstep.leases with hsame | hlease
      · exact .inl (hsame ▸ hstale)
      · exact hstale.of_step hlease
    rcases hmoved with hstale' | ⟨pid, hheld, hleases⟩
    · rcases ih hstale' with hfirst | ⟨v₁, v₂, pid, process, hv₁, hv, hv₂, hrest⟩
      · exact .inl hfirst
      · exact .inr ⟨v₁, v₂, pid, process, hv₁, hv, hv₂.tail hstep, hrest⟩
    · obtain ⟨process, hprocess, hdir⟩ := Option.map_eq_some_iff.mp hheld
      refine .inr ⟨w₁, w₂, pid, process, hbefore, hstep, .refl, hprocess, hdir, ?_, hstale.1⟩
      have hholds : w₂.holds = Function.update w₁.holds pid none := congrArg Ledger.held hleases
      have hnone : w₂.holds pid = none := by rw [hholds, Function.update_self]
      exact Option.map_eq_none_iff.mp hnone

/-- **The lock file keeps the nodes of a directory apart**, however many processes are started,
stopped and killed, and in whatever order they act. A directory has one process at a time, and
another one is refused; a node sees the log as it has left it, so that all nodes of a directory are
one node with restarts; and a directory that is locked without a process was so from the
beginning, or is so since a process ended without removing its lock file. -/
theorem storage_lock_isolates (hasher : HashPort) (sampler : SamplingPort) (addr : AddrText)
    (B : Block → Prop) (chainOf : Dir → ChainConfig) {w₀ w : World Pid Dir}
    (hidle : ∀ pid, w₀.process pid = none)
    (hrun : Relation.ReflTransGen (WorldStep hasher sampler addr B chainOf) w₀ w) :
    (∀ pid pid' process process', w.process pid = some process →
        w.process pid' = some process' → process.dir = process'.dir → pid = pid') ∧
      (∀ pid process io, w.process pid = some process → ∃ error,
        acquireStorageLock io (w.lockFile process.dir) = (.error error, true)) ∧
      (∀ pid dir st, w.process pid = some ⟨dir, .running st⟩ → st.storage = some (w.disk dir)) ∧
      (∀ w' pid pid' dir st st', w.process pid = some ⟨dir, .running st⟩ →
        Relation.ReflTransGen (WorldStep hasher sampler addr B chainOf) w w' →
        w'.process pid' = some ⟨dir, .running st'⟩ →
        Relation.ReflTransGen (Serve hasher sampler addr B) st st') ∧
      (∀ dir, w.lockFile dir = true →
        (∀ pid process, w.process pid = some process → process.dir ≠ dir) →
        w₀.lockFile dir = true ∨ ∃ w₁ w₂ pid process,
          Relation.ReflTransGen (WorldStep hasher sampler addr B chainOf) w₀ w₁ ∧
          WorldStep hasher sampler addr B chainOf w₁ w₂ ∧
          Relation.ReflTransGen (WorldStep hasher sampler addr B chainOf) w₂ w ∧
          w₁.process pid = some process ∧ process.dir = dir ∧
          w₂.process pid = none ∧ w₂.lockFile dir = true) := by
  have hisolated : Isolated chainOf w := (isolated_idle hidle).run hrun
  refine ⟨fun _ _ _ _ => hisolated.alone, ?_, fun pid dir st hprocess =>
    (hisolated.view pid dir st hprocess).1, fun _ _ _ _ _ _ => serve_of_run hisolated, ?_⟩
  · intro pid process io hprocess
    have hlocked := hisolated.exclusive.marked pid process.dir (holds_of_process hprocess)
    unfold acquireStorageLock
    rw [hlocked]
    cases io.directory with
    | none => exact ⟨.exists_, rfl⟩
    | some e => exact ⟨.directory e, rfl⟩
  · intro dir hlocked hnobody
    have hstale : Stale w.leases dir := by
      refine ⟨hlocked, fun pid hheld => ?_⟩
      obtain ⟨process, hprocess, hdir⟩ := Option.map_eq_some_iff.mp hheld
      exact hnobody pid process hprocess hdir
    exact (stale_of_run hrun hstale).imp_left And.left

/-! ### Handing over -/

/-- What a node and its log have in every run in which appends succeed. -/
structure Sound (hasher : HashPort) (sampler : SamplingPort) (addr : AddrText) (B : Block → Prop)
    (config : ChainConfig) (st : NodeState) : Prop where
  active : Active hasher sampler B st
  replays : ∃ text, Replays hasher sampler addr config text st

lemma Sound.loads {config : ChainConfig} (h : Sound hasher sampler addr B config st) :
    initialChains hasher sampler addr config st.storage = .ok (st.chain, st.forkChoice) := by
  obtain ⟨text, hreplays⟩ := h.replays
  obtain ⟨s, hloads, hs⟩ := hreplays.loads
  exact (initialChains_ok_iff hreplays.log).mpr ⟨s, hloads.2, hs, hs ▸ h.active.chain⟩

/-- **Serving forgets nothing.** A restart loads what was in memory. -/
theorem Sound.serve {config : ChainConfig} (h : Sound hasher sampler addr B config st)
    (hnonzero : ∀ b, B b → blockHash hasher b ≠ Digest.zero)
    (hserve : Serve hasher sampler addr B st st') :
    Sound hasher sampler addr B config st' ∧ Later hasher sampler B st st' := by
  cases hserve with
  | step hstep =>
    have hsound : Sound hasher sampler addr B config st' := by
      refine run_keeps (P := Sound hasher sampler addr B config) (fun v v' hv hmove => ?_)
        (.single hstep) h
      obtain ⟨text, hreplays⟩ := hv.replays
      refine ⟨hv.active.move hnonzero hmove, ?_⟩
      rcases hreplays.move hmove with ⟨-, hreplays'⟩ | ⟨_, _, -, -, -, hreplays'⟩
      · exact ⟨_, hreplays'⟩
      · exact ⟨_, hreplays'⟩
    exact ⟨hsound, later_of_run h.active hnonzero (.single hstep)⟩
  | restart hstorage hload =>
    obtain ⟨text, hreplays⟩ := h.replays
    have hloads := h.loads
    rw [hreplays.configured.chain, hloads, Except.ok.injEq, Prod.mk.injEq] at hload
    obtain ⟨hchain, hfc⟩ := hload
    have hmove : Move hasher sampler B st st' := .idle hchain.symm hfc.symm hstorage
    have hactive := h.active.move hnonzero hmove
    refine ⟨⟨hactive, ?_⟩, ⟨hactive, ?_, ?_⟩⟩
    · rcases hreplays.move hmove with ⟨-, hreplays'⟩ | ⟨_, _, -, -, -, hreplays'⟩
      · exact ⟨_, hreplays'⟩
      · exact ⟨_, hreplays'⟩
    · rw [← hfc]
      exact .refl _
    · rw [← hfc]

lemma Sound.run {config : ChainConfig} (h : Sound hasher sampler addr B config st)
    (hnonzero : ∀ b, B b → blockHash hasher b ≠ Digest.zero)
    (hrun : Relation.ReflTransGen (Serve hasher sampler addr B) st st') :
    Sound hasher sampler addr B config st' ∧ Later hasher sampler B st st' := by
  induction hrun with
  | refl => exact ⟨h, h.active, .refl _, rfl⟩
  | tail _ hserve ih =>
    obtain ⟨hsound, hlater⟩ := ih
    obtain ⟨hsound', hlater'⟩ := hsound.serve hnonzero hserve
    exact ⟨hsound', hlater.trans hlater'⟩

/-- A process that serves a directory is sound, when the log the directory begins with loads. -/
lemma sound_of_run {dir : Dir} {text : Str} {st₀ : NodeState} {w₀ : World Pid Dir}
    (hnonzero : ∀ b, B b → blockHash hasher b ≠ Digest.zero)
    (hidle : ∀ pid, w₀.process pid = none)
    (hstart : LogStart hasher sampler addr B (chainOf dir) text st₀)
    (hlog : st₀.storage = some (w₀.disk dir)) (hsucceed : ∀ io ∈ (w₀.disk dir).io, Succeeds io)
    (hrun : Relation.ReflTransGen (WorldStep hasher sampler addr B chainOf) w₀ w) {pid : Pid}
    (hprocess : w.process pid = some ⟨dir, .running st⟩) :
    Sound hasher sampler addr B (chainOf dir) st ∧ st.storage = some (w.disk dir) := by
  have hdesc₀ : Descends hasher sampler addr B chainOf dir st₀ w₀ := by
    refine ⟨st₀, .refl, hlog, hstart.configured, fun pid st hnobody => ?_⟩
    rw [hidle pid] at hnobody
    cases hnobody
  have hall : AllAppends Succeeds st₀ := by
    intro disk hdisk
    rw [hlog, Option.some.injEq] at hdisk
    subst hdisk
    exact hsucceed
  have hsound₀ : Sound hasher sampler addr B (chainOf dir) st₀ :=
    ⟨hstart.active, text, LogStart.replays hstart hall⟩
  obtain ⟨last, hserve, hstorage, -, hlast⟩ := hdesc₀.run (isolated_idle hidle) hrun
  obtain rfl := hlast pid st hprocess
  exact ⟨(hsound₀.run hnonzero hserve).1, hstorage⟩

/-- **A directory forgets no block.** Where appends succeed and the log a directory begins with
loads, its log loads at every time as what the node that serves it has in memory, and a later node
of the directory knows all that an earlier one knew and has no worse a tip, however the earlier one
has ended. -/
theorem directory_forgets_nothing (hasher : HashPort) (sampler : SamplingPort) (addr : AddrText)
    (B : Block → Prop) (chainOf : Dir → ChainConfig) (dir : Dir) (text : Str) (st₀ : NodeState)
    {w₀ : World Pid Dir} (hnonzero : ∀ b, B b → blockHash hasher b ≠ Digest.zero)
    (hidle : ∀ pid, w₀.process pid = none)
    (hstart : LogStart hasher sampler addr B (chainOf dir) text st₀)
    (hlog : st₀.storage = some (w₀.disk dir)) (hsucceed : ∀ io ∈ (w₀.disk dir).io, Succeeds io)
    (hrun : Relation.ReflTransGen (WorldStep hasher sampler addr B chainOf) w₀ w) {pid : Pid}
    (hprocess : w.process pid = some ⟨dir, .running st⟩) :
    initialChains hasher sampler addr (chainOf dir) (some (w.disk dir)) =
        .ok (st.chain, st.forkChoice) ∧
      ∀ w' pid' st', Relation.ReflTransGen (WorldStep hasher sampler addr B chainOf) w w' →
        w'.process pid' = some ⟨dir, .running st'⟩ →
        (∀ k n, st.forkChoice.look k = some n → st'.forkChoice.look k = some n) ∧
        ∀ old, st.forkChoice.bestTip.bind st.forkChoice.look = some old →
          ∃ new, st'.forkChoice.bestTip.bind st'.forkChoice.look = some new ∧
            isBetterTip old new = false := by
  have hisolated : Isolated chainOf w := (isolated_idle hidle).run hrun
  obtain ⟨hsound, hstorage⟩ := sound_of_run hnonzero hidle hstart hlog hsucceed hrun hprocess
  refine ⟨hstorage ▸ hsound.loads, fun w' pid' st' hrun' hprocess' => ?_⟩
  obtain ⟨-, hlater⟩ := hsound.run hnonzero (serve_of_run hisolated hprocess hrun' hprocess')
  exact ⟨hlater.extends_, fun _ hold => hlater.tip hold⟩

/-! ### Two processes, one after the other -/

/-- A machine with nothing on it. -/
def emptyWorld : World ℕ ℕ := ⟨fun _ => false, fun _ => ⟨none, []⟩, fun _ => none⟩

def storedConfig : NodeConfig :=
  { NodeConfig.localhostEphemeral "node".toList with
    chain := demoConfig, storage := some "data".toList }

/-- What can happen on that machine. -/
def DemoRun : World ℕ ℕ → World ℕ ℕ → Prop :=
  Relation.ReflTransGen (WorldStep toyHash deterministicSampler demoAddr (· = demoBlock)
    fun _ => demoConfig)

/-- A node starts where no other one does, when the log loads. -/
lemma demoRun_starts {w : World ℕ ℕ} (pid : ℕ) (hfree : w.process pid = none)
    (hunlocked : w.lockFile 0 = false) {chains : ChainState × ForkChoiceState}
    (hloads : initialChains toyHash deterministicSampler demoAddr demoConfig (some (w.disk 0)) =
      .ok chains) :
    ∃ w' st, DemoRun w w' ∧ w'.process pid = some ⟨0, .running st⟩ ∧
      (∀ pid', pid' ≠ pid → w'.process pid' = w.process pid') ∧ st.forkChoice = chains.2 := by
  have hstart : startNode toyHash deterministicSampler demoAddr storedConfig
      (.v4 0x7f000001 9333) (some (w.disk 0)) =
      .ok (initialState storedConfig (.v4 0x7f000001 9333) (some (w.disk 0)) chains) := by
    have hvalid : validateNodeConfig demoAddr storedConfig = .ok () := rfl
    have hchain : storedConfig.chain = demoConfig := rfl
    unfold startNode
    rw [hvalid, hchain, hloads]
    rfl
  have hlock : acquireStorageLock ⟨none, none⟩ (w.lockFile 0) = (.ok (), true) := by
    rw [hunlocked]
    rfl
  have hacquire := (Relation.ReflTransGen.refl (r := WorldStep toyHash deterministicSampler
    demoAddr (· = demoBlock) fun _ => demoConfig) (a := w)).tail
    (.acquire pid 0 (.v4 0x7f000001 9333) hfree
      (show storedConfig.storage.isSome = true from rfl) rfl rfl hlock)
  refine ⟨_, _, hacquire.tail (.load pid 0 (Function.update_self _ _ _) hstart),
    Function.update_self _ _ _, fun pid' hne => ?_, rfl⟩
  simp only [Function.update_of_ne hne]

lemma demoBlock_nonzero : ∀ b, b = demoBlock → blockHash toyHash b ≠ Digest.zero := by
  rintro b rfl
  decide +kernel

lemma demoRun_sound {w : World ℕ ℕ} {pid : ℕ} {st : NodeState} (hrun : DemoRun emptyWorld w)
    (hprocess : w.process pid = some ⟨0, .running st⟩) :
    Sound toyHash deterministicSampler demoAddr (· = demoBlock) demoConfig st ∧
      st.storage = some (w.disk 0) := by
  have hstart : LogStart toyHash deterministicSampler demoAddr (· = demoBlock) demoConfig []
      (demoNode ⟨none, []⟩) := freshNode_logStart _ _
  have hsound := sound_of_run demoBlock_nonzero (fun _ => rfl) (by exact hstart) (by rfl)
    (fun _ hio => absurd hio List.not_mem_nil) hrun hprocess
  exact hsound

/-- A node that knows nothing mines the block. -/
lemma demoRun_mines {w : World ℕ ℕ} {pid : ℕ} {st : NodeState} (hrun : DemoRun emptyWorld w)
    (hprocess : w.process pid = some ⟨0, .running st⟩)
    (hfc : st.forkChoice = ForkChoiceState.new demoConfig) :
    ∃ w' st', DemoRun w w' ∧ w'.process pid = some ⟨0, .running st'⟩ ∧
      (∀ pid', pid' ≠ pid → w'.process pid' = w.process pid') ∧
      st'.forkChoice.containsBlock (blockHash toyHash demoBlock) = true := by
  obtain ⟨hsound, hstorage⟩ := demoRun_sound hrun hprocess
  have hmined : st.forkChoice.mineNextBlock toyHash 1 0 = some demoBlock := by
    rw [hfc]
    exact mineAfter_of_difficulty_zero toyHash rfl _ 1 0
  obtain ⟨st', hmine, -⟩ := mineOnce_succeeds hsound.active deterministicSampler_inRange
    demoBlock_nonzero rfl hmined
  obtain ⟨-, hins, hstorage', -⟩ := mineOnce_ok hmine
  have hknown := (containsBlock_iff _).mpr (look_insertBlock_self hins)
  have hsame : { st with storage := some (w.disk 0) } = st := by rw [← hstorage]
  rw [hstorage] at hstorage'
  have hop : NodeStep toyHash deterministicSampler demoAddr (· = demoBlock)
      { st with storage := some (w.disk 0) } (.mined demoBlock) st' := by
    rw [hsame]
    exact .mine 1 0 hmine rfl
  have hstep : WorldStep toyHash deterministicSampler demoAddr (· = demoBlock)
      (fun _ => demoConfig) w _ := .operate pid 0 hprocess hop hstorage'
  exact ⟨_, st', .single hstep, Function.update_self _ _ _,
    fun pid' hne => Function.update_of_ne hne _ _, hknown⟩

/-- The first process mines a block and is killed, an operator removes its lock file, and another
one starts. -/
lemma emptyWorld_run : ∃ w w' st st', DemoRun emptyWorld w ∧
    w.process 1 = some ⟨0, .running st⟩ ∧
    st.forkChoice.containsBlock (blockHash toyHash demoBlock) = true ∧ DemoRun w w' ∧
    w'.process 2 = some ⟨0, .running st'⟩ := by
  have hempty : initialChains toyHash deterministicSampler demoAddr demoConfig
      (some (emptyWorld.disk 0)) =
      .ok (ChainState.new demoConfig, ForkChoiceState.new demoConfig) := rfl
  obtain ⟨v, st₀, hfirst, hprocess₀, hothers₀, hfc⟩ :=
    demoRun_starts (w := emptyWorld) 1 rfl rfl hempty
  obtain ⟨w, st, hmines, hprocess, hothers, hknown⟩ := demoRun_mines hfirst hprocess₀ hfc
  have hbefore : DemoRun emptyWorld w := hfirst.trans hmines
  have hnobody : ∀ pid, Function.update w.process 1 none pid = none := by
    intro pid
    by_cases hpid : pid = 1
    · rw [hpid, Function.update_self]
    · rw [Function.update_of_ne hpid, hothers pid hpid, hothers₀ pid hpid]
      rfl
  have hcleared : DemoRun w ⟨Function.update w.lockFile 0 false, w.disk,
      Function.update w.process 1 none⟩ := by
    refine (Relation.ReflTransGen.refl.tail (.kill 1 hprocess)).tail (.clear 0 ?_)
    intro pid process hsome
    exact absurd ((hnobody pid).symm.trans hsome) (Option.some_ne_none process).symm
  obtain ⟨hsound, hstorage⟩ := demoRun_sound hbefore hprocess
  have hloads := hsound.loads
  rw [hstorage] at hloads
  obtain ⟨w', st', hsecond, hprocess', -⟩ := demoRun_starts (w := ⟨Function.update w.lockFile 0
    false, w.disk, Function.update w.process 1 none⟩) 2 (hnobody 2)
    (Function.update_self 0 false w.lockFile) hloads
  exact ⟨w, w', st, st', hbefore, hprocess, hknown, hcleared.trans hsecond, hprocess'⟩

theorem storage_lock_isolates_restart :
    ∃ w w' st st', DemoRun emptyWorld w ∧ w.process 1 = some ⟨0, .running st⟩ ∧
      st.forkChoice.containsBlock (blockHash toyHash demoBlock) = true ∧ DemoRun w w' ∧
      w'.process 2 = some ⟨0, .running st'⟩ ∧ st.storage = some (w.disk 0) ∧
      Relation.ReflTransGen (Serve toyHash deterministicSampler demoAddr (· = demoBlock))
        st st' := by
  obtain ⟨w, w', st, st', hfirst, hprocess, hknown, hsecond, hprocess'⟩ := emptyWorld_run
  obtain ⟨-, -, hview, hserve, -⟩ := storage_lock_isolates toyHash deterministicSampler demoAddr
    (· = demoBlock) (fun _ => demoConfig) (fun _ => rfl) hfirst
  exact ⟨w, w', st, st', hfirst, hprocess, hknown, hsecond, hprocess', hview 1 0 st hprocess,
    hserve w' 1 2 0 st st' hprocess hsecond hprocess'⟩

theorem directory_forgets_nothing_restart :
    ∃ w w' st st', DemoRun emptyWorld w ∧ w.process 1 = some ⟨0, .running st⟩ ∧ DemoRun w w' ∧
      w'.process 2 = some ⟨0, .running st'⟩ ∧
      initialChains toyHash deterministicSampler demoAddr demoConfig (some (w.disk 0)) =
        .ok (st.chain, st.forkChoice) ∧
      st.forkChoice.containsBlock (blockHash toyHash demoBlock) = true ∧
      st'.forkChoice.containsBlock (blockHash toyHash demoBlock) = true := by
  obtain ⟨w, w', st, st', hfirst, hprocess, hknown, hsecond, hprocess'⟩ := emptyWorld_run
  obtain ⟨hload, hlater⟩ := directory_forgets_nothing toyHash deterministicSampler demoAddr
    (· = demoBlock) (fun _ => demoConfig) 0 [] (demoNode ⟨none, []⟩) demoBlock_nonzero
    (fun _ => rfl) (freshNode_logStart _ _) rfl (fun _ hio => absurd hio List.not_mem_nil) hfirst
    hprocess
  obtain ⟨n, hn⟩ := (containsBlock_iff _).mp hknown
  exact ⟨w, w', st, st', hfirst, hprocess, hsecond, hprocess', hload, hknown,
    (containsBlock_iff _).mpr ⟨n, (hlater w' 2 st' hsecond hprocess').1 _ n hn⟩⟩

end Chesscoin.StorageLock

/-
Module: CustomXv6.Kernel.FileSystem
Purpose: The log and the sleep-locks over the kernel, and what a dropped process leaves in them.
Trusted boundary: human-reviewed spec
Main exports: FsKernel.step, dropped_holds_nothing, sleeplock_exclusive
-/
import CustomXv6.Kernel.Partition
import Mathlib.Algebra.BigOperators.Fin
import Mathlib.Tactic.Ring

namespace CustomXv6

open Transition
open Function

variable {n : Nat}

/-! ### The log and the sleep-locks -/

abbrev maxopblocks : Nat := 10

abbrev logsize : Nat := maxopblocks * 3

abbrev nbuf : Nat := maxopblocks * 3

abbrev ninode : Nat := 50

/-- The sleep-locks of the buffers and inodes in memory. -/
abbrev LockId := Fin (nbuf + ninode)

/-- `struct log`, without the fields that only the disk layout uses.  `lh` is
the list `log.lh.block`, of length `log.lh.n`. -/
structure Log where
  size : Int
  outstanding : Int
  committing : Bool
  lh : List UInt32
deriving DecidableEq, Repr

namespace Log

/-- `begin_op` has to wait: a commit is going on, or the operation might
exhaust the log. -/
def mustWait (log : Log) : Bool :=
  log.committing || logsize < log.lh.length + (log.outstanding + 1) * maxopblocks

/-- `begin_op`, once it need not wait. -/
def beginOp (log : Log) : Log :=
  { log with outstanding := log.outstanding + 1 }

def logWrite (log : Log) (blockno : UInt32) : Except Panic Log :=
  if logsize ≤ log.lh.length ∨ log.size - 1 ≤ log.lh.length then .error .bigTransaction
  else if log.outstanding < 1 then .error .logOutsideTrans
  else
    .ok { log with lh := if blockno ∈ log.lh then log.lh else log.lh ++ [blockno] }

/-- `end_op`, up to the test of `do_commit`, which is the second component. -/
def endOp (log : Log) : Except Panic (Log × Bool) :=
  let outstanding := log.outstanding - 1
  if log.committing then .error .logCommitting
  else if outstanding = 0 then
    .ok ({ log with outstanding := outstanding, committing := true }, true)
  else .ok ({ log with outstanding := outstanding }, false)

end Log

/-- `struct sleeplock`, without its spin-lock and name. -/
structure Sleeplock where
  locked : Bool := false
  pid : Int := 0
deriving DecidableEq, Repr

/-- The kernel with its log and sleep-locks.  The code does not record who is inside an
operation: `ops` counts for every process the operations it has begun and not ended, and
`committer` is the process in `commit`. -/
structure FsKernel (n : Nat) where
  kernel : Kernel n
  log : Log
  locks : LockId → Sleeplock
  ops : ProcId → Nat
  committer : Option ProcId

/-- The critical sections of the log and the sleep-locks, and the steps of the
kernel below. -/
inductive FsAction (n : Nat) where
  | kernel (act : Action n)
  /-- One round of the loop of `begin_op`. -/
  | beginOp (c : Fin n)
  /-- The first critical section of `end_op`. -/
  | endOp (c : Fin n)
  /-- The end of `commit`, and the second critical section of `end_op`. -/
  | endCommit (c : Fin n)
  | logWrite (c : Fin n) (blockno : UInt32)
  /-- One round of the loop of `acquiresleep`. -/
  | acquiresleep (c : Fin n) (lk : LockId)
  | releasesleep (c : Fin n) (lk : LockId)
deriving DecidableEq, Repr

/-- What a process does besides between taking and giving back a resource: it sleeps or is
preempted. -/
def ProcAction.insideCall : ProcAction → Bool
  | .preempt => true
  | .sleep _ => true
  | _ => false

namespace FsKernel

/-- `holdingsleep`, asked about process `p`. -/
def holdingsleep (s : FsKernel n) (p : ProcId) (lk : LockId) : Bool :=
  (s.locks lk).locked && (s.locks lk).pid = (s.kernel.procs p).pid

/-- The process is between `begin_op` and the end of `end_op`, or holds a
sleep-lock. -/
def busy (s : FsKernel n) (p : ProcId) : Bool :=
  s.ops p ≠ 0 || s.committer = some p || (List.finRange (nbuf + ninode)).any (s.holdingsleep p)

def onKernel (s : FsKernel n) (act : Action n) : Option (FsKernel n) :=
  (s.kernel.step act).map fun kernel => { s with kernel := kernel }

def panic (s : FsKernel n) (c : Fin n) (reason : Panic) : FsKernel n :=
  { s with kernel := s.kernel.panic c reason }

def beginOp (s : FsKernel n) (c : Fin n) (p : ProcId) : Option (FsKernel n) :=
  if s.log.mustWait then s.onKernel (.proc c (.sleep .log))
  else some { s with log := s.log.beginOp, ops := update s.ops p (s.ops p + 1) }

/-- `end_op`, up to the test of `do_commit`. -/
def endOp (s : FsKernel n) (c : Fin n) (p : ProcId) : Option (FsKernel n) :=
  let ops := update s.ops p (s.ops p - 1)
  match s.log.endOp with
  | .error reason =>
    let log := { s.log with outstanding := s.log.outstanding - 1 }
    some ({ s with log := log, ops := ops }.panic c reason)
  | .ok (log, true) => some { s with log := log, ops := ops, committer := some p }
  | .ok (log, false) => { s with log := log, ops := ops }.onKernel (.wakeup c .log)

/-- `end_op` from the end of `commit`, which has cleared the log. -/
def endCommit (s : FsKernel n) (c : Fin n) : Option (FsKernel n) :=
  { s with log := { s.log with committing := false, lh := [] }, committer := none }.onKernel
    (.wakeup c .log)

def logWrite (s : FsKernel n) (c : Fin n) (blockno : UInt32) : FsKernel n :=
  match s.log.logWrite blockno with
  | .error reason => s.panic c reason
  | .ok log => { s with log := log }

def acquiresleep (s : FsKernel n) (c : Fin n) (p : ProcId) (lk : LockId) : Option (FsKernel n) :=
  if (s.locks lk).locked then s.onKernel (.proc c (.sleep (.sleeplock lk.val)))
  else
    let lock := { locked := true, pid := (s.kernel.procs p).pid }
    some { s with locks := update s.locks lk lock }

def releasesleep (s : FsKernel n) (c : Fin n) (lk : LockId) : Option (FsKernel n) :=
  { s with locks := update s.locks lk { locked := false, pid := 0 } }.onKernel
    (.wakeup c (.sleeplock lk.val))

/-- The process on CPU `c`, if it is inside a system call or in the `fsinit` of
`forkret`. -/
def caller (s : FsKernel n) (c : Fin n) : Option ProcId :=
  match s.kernel.executing c with
  | some (p, _) =>
    if (s.kernel.procs p).context = .kernel ∨ (s.kernel.procs p).context = .forkret then some p
    else none
  | none => none

/-- The discipline of the callers: between taking and giving back a resource a
process only sleeps or is preempted.  In particular it does not return to user
space, exit or fork. -/
def respects (s : FsKernel n) : Action n → Bool
  | .proc c act =>
    match s.kernel.executing c with
    | some (p, _) => !s.busy p || act.insideCall
    | none => true
  | _ => true

/-- The transition function.  A caller ends only an operation that it has begun
and releases only a lock that it holds. -/
def step (s : FsKernel n) : FsAction n → Option (FsKernel n)
  | .kernel act => if s.respects act then s.onKernel act else none
  | .beginOp c => (s.caller c).bind fun p => s.beginOp c p
  | .endOp c => (s.caller c).bind fun p => if s.ops p ≠ 0 then s.endOp c p else none
  | .endCommit c => (s.caller c).bind fun p => if s.committer = some p then s.endCommit c else none
  | .logWrite c blockno => (s.caller c).map fun _ => s.logWrite c blockno
  | .acquiresleep c lk => (s.caller c).bind fun p => s.acquiresleep c p lk
  | .releasesleep c lk =>
    (s.caller c).bind fun p => if s.holdingsleep p lk then s.releasesleep c lk else none

end FsKernel

/-- The kernel at boot, after `initlog` and `initsleeplock`. -/
def fsBoot (n : Nat) : FsKernel n :=
  { kernel := boot n
    log := { size := logsize, outstanding := 0, committing := false, lh := [] }
    locks := fun _ => {}
    ops := fun _ => 0
    committer := none }

/-! ### Inversion -/

/-- The effects a step can have.  On the kernel below it has none, is one of
its steps, or stops a CPU. -/
inductive FsStep (s : FsKernel n) : FsAction n → FsKernel n → Prop where
  | kernel (act : Action n) (kernel : Kernel n) (respects : s.respects act)
      (ran : s.kernel.step act = some kernel) :
      FsStep s (.kernel act) { s with kernel := kernel }
  | waitsLog (c : Fin n) (kernel : Kernel n) (waits : s.log.mustWait)
      (ran : s.kernel.step (.proc c (.sleep .log)) = some kernel) :
      FsStep s (.beginOp c) { s with kernel := kernel }
  | begins (c : Fin n) (p : ProcId) (called : s.caller c = some p) :
      FsStep s (.beginOp c)
        { s with
          log := { s.log with outstanding := s.log.outstanding + 1 }
          ops := update s.ops p (s.ops p + 1) }
  | ends (c : Fin n) (p : ProcId) (kernel : Kernel n) (lt : s.ops p ≠ 0)
      (ran : s.kernel.step (.wakeup c .log) = some kernel) :
      FsStep s (.endOp c)
        { s with
          log := { s.log with outstanding := s.log.outstanding - 1 }
          ops := update s.ops p (s.ops p - 1)
          kernel := kernel }
  | commits (c : Fin n) (p : ProcId) (lt : s.ops p ≠ 0) :
      FsStep s (.endOp c)
        { s with
          log := { s.log with outstanding := s.log.outstanding - 1, committing := true }
          ops := update s.ops p (s.ops p - 1)
          committer := some p }
  | endsCommitting (c : Fin n) (p : ProcId) (lt : s.ops p ≠ 0) (called : s.caller c = some p) :
      FsStep s (.endOp c)
        ({ s with
          log := { s.log with outstanding := s.log.outstanding - 1 }
          ops := update s.ops p (s.ops p - 1) }.panic c .logCommitting)
  | committed (c : Fin n) (kernel : Kernel n)
      (ran : s.kernel.step (.wakeup c .log) = some kernel) :
      FsStep s (.endCommit c)
        { s with
          log := { s.log with committing := false, lh := [] }
          committer := none
          kernel := kernel }
  | writes (c : Fin n) (blockno : UInt32) (lh : List UInt32) :
      FsStep s (.logWrite c blockno) { s with log := { s.log with lh := lh } }
  | waitsLock (c : Fin n) (lk : LockId) (kernel : Kernel n) (locked : (s.locks lk).locked)
      (ran : s.kernel.step (.proc c (.sleep (.sleeplock lk.val))) = some kernel) :
      FsStep s (.acquiresleep c lk) { s with kernel := kernel }
  | acquires (c : Fin n) (p : ProcId) (lk : LockId) (called : s.caller c = some p) :
      FsStep s (.acquiresleep c lk)
        { s with
          locks := update s.locks lk
            { locked := true, pid := (s.kernel.procs p).pid } }
  | releases (c : Fin n) (lk : LockId) (kernel : Kernel n)
      (ran : s.kernel.step (.wakeup c (.sleeplock lk.val)) = some kernel) :
      FsStep s (.releasesleep c lk)
        { s with
          locks := update s.locks lk { locked := false, pid := 0 }
          kernel := kernel }
  | stops {act : FsAction n} (c : Fin n) (p : ProcId) (reason : Panic)
      (called : s.caller c = some p) : FsStep s act (s.panic c reason)

theorem onKernel_cases {s s' : FsKernel n} {act : Action n} (ran : s.onKernel act = some s') :
    ∃ kernel, s.kernel.step act = some kernel ∧ s' = { s with kernel := kernel } := by
  obtain ⟨kernel, kstep, rfl⟩ := Option.map_eq_some_iff.mp ran
  exact ⟨kernel, kstep, rfl⟩

variable {c : Fin n}

theorem caller_cases {s : FsKernel n} {p : ProcId} (called : s.caller c = some p) :
    ∃ t, s.kernel.executing c = some (p, t) ∧ (s.kernel.procs p).context ≠ .trapYield := by
  rw [FsKernel.caller] at called
  split at called
  · rename_i p' t runs
    split at called
    · rename_i inKernel
      cases called
      refine ⟨t, runs, ?_⟩
      rcases inKernel with context | context <;> simp [context]
    · cases called
  · cases called

/-- Every step has one of the listed effects. -/
theorem fsStep_cases {s s' : FsKernel n} {act : FsAction n} (ran : s.step act = some s') :
    FsStep s act s' := by
  cases act with
  | kernel act =>
    simp only [FsKernel.step] at ran
    split at ran
    · rename_i respects
      obtain ⟨kernel, kstep, rfl⟩ := onKernel_cases ran
      exact .kernel act kernel respects kstep
    · cases ran
  | beginOp c =>
    obtain ⟨p, called, begun⟩ := Option.bind_eq_some_iff.mp ran
    rw [FsKernel.beginOp] at begun
    split at begun
    · rename_i waits
      obtain ⟨kernel, kstep, rfl⟩ := onKernel_cases begun
      exact .waitsLog c kernel waits kstep
    · cases begun
      exact .begins c p called
  | endOp c =>
    obtain ⟨p, called, ended⟩ := Option.bind_eq_some_iff.mp ran
    split at ended
    · rename_i lt
      simp only [FsKernel.endOp, Log.endOp] at ended
      split at ended
      · rename_i failed
        split at failed
        · cases failed
          cases ended
          exact .endsCommitting c p lt called
        · split at failed <;> cases failed
      · rename_i ends
        split at ends
        · cases ends
        split at ends
        · cases ends
          cases ended
          exact .commits c p lt
        · cases ends
      rename_i ends
      split at ends
      · cases ends
      split at ends
      · cases ends
      cases ends
      obtain ⟨kernel, kstep, rfl⟩ := onKernel_cases ended
      exact .ends c p kernel lt kstep
    · cases ended
  | endCommit c =>
    obtain ⟨_, _, ended⟩ := Option.bind_eq_some_iff.mp ran
    split at ended
    · obtain ⟨kernel, kstep, rfl⟩ := onKernel_cases ended
      exact .committed c kernel kstep
    · cases ended
  | logWrite c blockno =>
    obtain ⟨p, called, rfl⟩ := Option.map_eq_some_iff.mp ran
    rw [FsKernel.logWrite]
    split
    · exact .stops c p _ called
    rename_i wrote
    simp only [Log.logWrite] at wrote
    split at wrote
    · cases wrote
    split at wrote
    · cases wrote
    · cases wrote
      exact .writes c blockno _
  | acquiresleep c lk =>
    obtain ⟨p, called, acquired⟩ := Option.bind_eq_some_iff.mp ran
    simp only [FsKernel.acquiresleep] at acquired
    split at acquired
    · rename_i locked
      obtain ⟨kernel, kstep, rfl⟩ := onKernel_cases acquired
      exact .waitsLock c lk kernel locked kstep
    · cases acquired
      exact .acquires c p lk called
  | releasesleep c lk =>
    obtain ⟨_, _, freed⟩ := Option.bind_eq_some_iff.mp ran
    split at freed
    · obtain ⟨kernel, kstep, rfl⟩ := onKernel_cases freed
      exact .releases c lk kernel kstep
    · cases freed

/-! ### What a busy process is like -/

namespace FsKernel

/-- `busy` as a proposition. -/
theorem busy_iff {s : FsKernel n} {p : ProcId} :
    s.busy p ↔ s.ops p ≠ 0 ∨ s.committer = some p ∨ ∃ lk, s.holdingsleep p lk := by
  simp [busy, or_assoc]

theorem holdingsleep_iff {s : FsKernel n} {p : ProcId} {lk : LockId} :
    s.holdingsleep p lk ↔ (s.locks lk).locked ∧ (s.locks lk).pid = (s.kernel.procs p).pid := by
  simp [holdingsleep]

/-- The invariant: a busy process is live and its deadline is ahead. -/
structure FsInv (s : FsKernel n) : Prop where
  kernel : s.kernel.Inv
  pids : s.kernel.PidInv
  live : ∀ p, s.busy p → (s.kernel.procs p).state.live
  inTime : ∀ p, s.busy p → (s.kernel.procs p).expired s.kernel.ticks = false
  lockPids : ∀ lk, (s.locks lk).locked → 0 < (s.locks lk).pid ∧ (s.locks lk).pid < s.kernel.nextpid
  counted : s.log.outstanding = ∑ p, (s.ops p : Int)

/-- A tick reaches the deadline of a busy process, or a late process calls `begin_op` or
`acquiresleep`. -/
def overruns (s : FsKernel n) : FsAction n → Bool
  | .kernel act =>
    act.isTimer && decide (∃ p, s.busy p ∧ (s.kernel.procs p).expired (s.kernel.ticks + 1))
  | .beginOp c => (s.caller c).any fun p => (s.kernel.procs p).expired s.kernel.ticks
  | .acquiresleep c _ => (s.caller c).any fun p => (s.kernel.procs p).expired s.kernel.ticks
  | _ => false

/-- The step makes the thread loop go on to a second thread. -/
def reenters (s : FsKernel n) : FsAction n → Bool
  | .kernel act => s.kernel.reenters act
  | .beginOp c => s.log.mustWait && s.kernel.reenters (.proc c (.sleep .log))
  | .acquiresleep c lk =>
    (s.locks lk).locked && s.kernel.reenters (.proc c (.sleep (.sleeplock lk.val)))
  | _ => false

namespace FsInv

variable {s : FsKernel n}
variable {p : ProcId} {act : Action n} {kernel : Kernel n} {ops : ProcId → Nat}

section

variable (inv : s.FsInv) (ran : s.kernel.step act = some kernel)
include inv ran

/-- No step of the kernel makes a process busy. -/
theorem busy_of_step (busy : { s with kernel := kernel }.busy p) : s.busy p := by
  rcases busy_iff.mp busy with lt | committing | ⟨lk, holds⟩
  · exact busy_iff.mpr (.inl lt)
  · exact busy_iff.mpr (.inr (.inl committing))
  obtain ⟨locked, same⟩ := holdingsleep_iff.mp holds
  obtain ⟨pos, bound⟩ := inv.lockPids lk locked
  cases inv.kernel.step_identity ran p with
  | kept pid =>
    exact busy_iff.mpr (.inr (.inr ⟨lk, holdingsleep_iff.mpr ⟨locked, same.trans pid⟩⟩))
  | taken _ _ _ pid =>
    rw [show (s.locks lk).pid = s.kernel.nextpid from same.trans pid] at bound
    exact absurd bound (Int.lt_irrefl _)
  | freed pid =>
    rw [show (s.locks lk).pid = 0 from same.trans pid] at pos
    exact absurd pos (Int.lt_irrefl _)

/-- A busy process stays live: the scheduler drops only late processes, and
`exit` is not called by a busy one. -/
theorem live_of_step
    (respects : s.respects act) (busy : s.busy p) : (kernel.procs p).state.live := by
  have live := inv.live p busy
  have inTime := inv.inTime p busy
  have changed := inv.kernel.step_change ran p
  have notLive : ∀ {state : ProcState}, (s.kernel.procs p).state = state → state.live = false →
      False := by
    rintro _ rfl dead
    rw [live] at dead
    cases dead
  have early : ∀ {usage : CpuUsage}, (s.kernel.procs p).usageTime = some usage →
      ¬ usage.deadline ≤ s.kernel.ticks := by
    intro usage has late
    simp [Proc.expired, has, late] at inTime
  generalize kernel.procs p = y at changed ⊢
  cases changed with
  | idles _ state =>
    rw [state]
    exact live
  | wakes _ _ state =>
    rw [state]
    rfl
  | readies _ _ used => exact (notLive used rfl).elim
  | taken _ _ _ _ free => exact (notLive free rfl).elim
  | freed off => rcases off with state | state <;> exact (notLive state rfl).elim
  | stores _ _ _ _ _ _ state =>
    rw [state]
    exact live
  | drops _ _ has late => exact absurd late (early has)
  | chooses => rfl
  | enters _ _ _ state =>
    rw [state]
    rfl
  | rests _ _ _ state =>
    rw [state]
    rfl
  | own _ _ state =>
    rw [state]
    exact live
  | expired _ _ has late => exact absurd late (early has)
  | gives _ _ runs stopped _ usage _ fixed =>
    obtain ⟨charged, has, lim, _⟩ := fixed.usage
    rw [usage] at has
    have charge : ¬ charged.deadline ≤ s.kernel.ticks := early has
    rcases stopped with runnable | ⟨sleeping, _⟩ | ⟨_, _, rfl⟩
    · rw [runnable] at lim
      generalize y.state = state at lim ⊢
      cases lim with
      | late expired => exact absurd expired charge
      | overQuota => rfl
      | within => rfl
      | untested => rfl
    · rw [sleeping] at lim
      generalize y.state = state at lim ⊢
      cases lim with
      | untested => rfl
    · simp [FsKernel.respects, runs, busy, ProcAction.insideCall] at respects

/-- A step of the kernel below. -/
theorem onKernel (respects : s.respects act) (leaves : s.kernel.reenters act = false)
    (ahead : ∀ p, s.busy p → (s.kernel.procs p).expired kernel.ticks = false) :
    { s with kernel := kernel }.FsInv where
  kernel := inv.kernel.step leaves ran
  pids := inv.kernel.pidInv_step inv.pids ran
  live := fun _ busy => inv.live_of_step ran respects (inv.busy_of_step ran busy)
  inTime := by
    intro p busy
    have pre := inv.busy_of_step ran busy
    rw [(inv.kernel.step_change ran p).expired_eq (inv.live p pre)]
    exact ahead p pre
  lockPids := by
    intro lk locked
    obtain ⟨pos, bound⟩ := inv.lockPids lk locked
    exact ⟨pos, Int.lt_of_lt_of_le bound ((step_globals ran).1)⟩
  counted := inv.counted

/-- A step of the kernel below that does not move the clock. -/
theorem onKernel_steady
    (respects : s.respects act) (leaves : s.kernel.reenters act = false)
    (noTimer : act.isTimer = false) : { s with kernel := kernel }.FsInv := by
  refine inv.onKernel ran respects leaves fun p busy => ?_
  rw [step_ticks ran noTimer]
  exact inv.inTime p busy

end

variable {committer : Option ProcId} {locks : LockId → Sleeplock} {log : Log}

/-- Changes of the log and the locks after which no more processes are busy. -/
theorem relax (inv : s.FsInv)
    (busy : ∀ p, FsKernel.busy ⟨s.kernel, log, locks, ops, committer⟩ p → s.busy p)
    (lockPids : ∀ lk, (locks lk).locked → (s.locks lk).locked ∧ (locks lk).pid = (s.locks lk).pid)
    (counted : log.outstanding = ∑ p, (ops p : Int)) :
    FsInv ⟨s.kernel, log, locks, ops, committer⟩ where
  kernel := inv.kernel
  pids := inv.pids
  live := fun p isBusy => inv.live p (busy p isBusy)
  inTime := fun p isBusy => inv.inTime p (busy p isBusy)
  lockPids := by
    intro lk locked
    obtain ⟨pre, pid⟩ := lockPids lk locked
    rw [pid]
    exact inv.lockPids lk pre
  counted := counted

/-- Changes after which the calling process is busy. -/
theorem occupy (inv : s.FsInv) (called : s.caller c = some p)
    (inTime : (s.kernel.procs p).expired s.kernel.ticks = false)
    (busy : ∀ p', FsKernel.busy ⟨s.kernel, log, locks, ops, s.committer⟩ p' → p' = p ∨ s.busy p')
    (lockPids : ∀ lk, (locks lk).locked → 0 < (locks lk).pid ∧ (locks lk).pid < s.kernel.nextpid)
    (counted : log.outstanding = ∑ p, (ops p : Int)) :
    FsInv ⟨s.kernel, log, locks, ops, s.committer⟩ where
  kernel := inv.kernel
  pids := inv.pids
  live := by
    intro p' isBusy
    obtain ⟨_, runs, notTrap⟩ := caller_cases called
    rcases busy p' isBusy with rfl | pre
    · rw [inv.kernel.fits_running (exec_running runs).1 notTrap]
      rfl
    · exact inv.live p' pre
  inTime := by
    intro p' isBusy
    rcases busy p' isBusy with rfl | pre
    · exact inTime
    · exact inv.inTime p' pre
  lockPids := lockPids
  counted := counted

/-- One more or one less operation of one process. -/
theorem sum_ops (p : ProcId) (count : Nat) :
    ∑ p', ((update ops p count p' : Nat) : Int) =
      ∑ p', (ops p' : Int) + ((count : Int) - ops p) := by
  have others : ∑ p' ∈ Finset.univ.erase p, ((update ops p count p' : Nat) : Int) =
      ∑ p' ∈ Finset.univ.erase p, (ops p' : Int) := by
    refine Finset.sum_congr rfl fun p' mem => ?_
    rw [update_of_ne (Finset.ne_of_mem_erase mem)]
  have pre := Finset.add_sum_erase Finset.univ (fun p' => (ops p' : Int)) (Finset.mem_univ p)
  have after := Finset.add_sum_erase Finset.univ
    (fun p' => ((update ops p count p' : Nat) : Int)) (Finset.mem_univ p)
  simp only [update_self] at after
  rw [← pre, ← after, others]
  ring

/-- A process ends one of its operations, and may go on to commit. -/
theorem ended (inv : s.FsInv) {committing : Bool} (lt : s.ops p ≠ 0)
    (goesOn : committer = s.committer ∨ committer = some p) :
    FsInv ⟨s.kernel, ⟨s.log.size, s.log.outstanding - 1, committing, s.log.lh⟩, s.locks,
      update s.ops p (s.ops p - 1), committer⟩ := by
  refine inv.relax (fun p' busy => busy_iff.mpr ?_) (fun lk locked => ⟨locked, rfl⟩) ?_
  · by_cases same : p' = p
    · exact .inl (same ▸ lt)
    rcases busy_iff.mp busy with ops | commits | holds
    · exact .inl (by simpa [same] using ops)
    · rcases goesOn with rfl | rfl
      · exact .inr (.inl commits)
      · exact absurd (Option.some.inj commits).symm same
    · exact .inr (.inr holds)
  · change s.log.outstanding - 1 = _
    rw [sum_ops, inv.counted]
    omega

/-- The caller panics. -/
theorem stop (inv : s.FsInv) {reason : Panic} (called : s.caller c = some p) :
    (s.panic c reason).FsInv := by
  obtain ⟨_, runs, _⟩ := caller_cases called
  have stopped : (s.kernel.panic c reason).Inv := by
    refine inv.kernel.panic reason fun p' src chosen => ?_
    cases (exec_running runs).2.symm.trans chosen
  exact ⟨stopped, ⟨inv.pids.used, inv.pids.free, inv.pids.bound, inv.pids.unique⟩, inv.live,
    inv.inTime, inv.lockPids, inv.counted⟩

/-- Every step keeps the invariant, unless a busy process overruns its deadline or the thread
loop goes on. -/
theorem step (inv : s.FsInv) {act : FsAction n} {s' : FsKernel n}
    (leaves : s.reenters act = false) (inTime : s.overruns act = false)
    (ran : s.step act = some s') : s'.FsInv := by
  have respectsSleep : ∀ {c : Fin n} {chan : Chan}, s.respects (.proc c (.sleep chan)) := by
    intro c _
    simp only [FsKernel.respects, ProcAction.insideCall, Bool.or_true]
    split <;> rfl
  cases fsStep_cases ran with
  | kernel act _ respects kstep =>
    refine inv.onKernel kstep respects leaves fun p busy => ?_
    cases timer : act.isTimer with
    | true =>
      rw [step_timer kstep timer]
      simp only [FsKernel.overruns, timer, Bool.true_and, decide_eq_false_iff_not, not_exists,
        not_and, Bool.not_eq_true] at inTime
      exact inTime p busy
    | false =>
      rw [step_ticks kstep timer]
      exact inv.inTime p busy
  | waitsLog _ _ waits kstep =>
    refine inv.onKernel_steady kstep respectsSleep ?_ rfl
    simpa [FsKernel.reenters, waits] using leaves
  | begins _ p called =>
    refine inv.occupy called (by simpa [FsKernel.overruns, called] using inTime) ?_ inv.lockPids ?_
    · intro p' busy
      by_cases same : p' = p
      · exact .inl same
      rcases busy_iff.mp busy with lt | rest
      · exact .inr (busy_iff.mpr (.inl (by simpa [same] using lt)))
      · exact .inr (busy_iff.mpr (.inr rest))
    · rw [sum_ops, inv.counted]
      simp
  | ends _ _ _ lt kstep =>
    exact (inv.ended lt (.inl rfl)).onKernel_steady kstep rfl rfl rfl
  | commits _ _ lt => exact inv.ended lt (.inr rfl)
  | endsCommitting _ _ lt called => exact (inv.ended lt (.inl rfl)).stop called
  | committed _ _ kstep =>
    refine FsInv.onKernel_steady (s := { s with
      log := { s.log with committing := false, lh := [] }
      committer := none }) ?_ kstep rfl rfl rfl
    refine inv.relax (fun p busy => busy_iff.mpr ?_) (fun lk locked => ⟨locked, rfl⟩) inv.counted
    rcases busy_iff.mp busy with ops | committing | holds
    · exact .inl ops
    · cases committing
    · exact .inr (.inr holds)
  | writes =>
    exact inv.relax (fun p busy => busy) (fun lk locked => ⟨locked, rfl⟩) inv.counted
  | waitsLock _ _ _ locked kstep =>
    refine inv.onKernel_steady kstep respectsSleep ?_ rfl
    simpa [FsKernel.reenters, locked] using leaves
  | acquires c p lk called =>
    have pidBound : 0 < (s.kernel.procs p).pid ∧ (s.kernel.procs p).pid < s.kernel.nextpid := by
      obtain ⟨_, runs, _⟩ := caller_cases called
      exact ⟨inv.pids.used p (inv.kernel.in_use (a := .cpu c) (exec_running runs).1),
        inv.pids.bound p⟩
    refine inv.occupy called (by simpa [FsKernel.overruns, called] using inTime) ?_ ?_ inv.counted
    · intro p' busy
      rcases busy_iff.mp busy with ops | committing | ⟨lk', holds⟩
      · exact .inr (busy_iff.mpr (.inl ops))
      · exact .inr (busy_iff.mpr (.inr (.inl committing)))
      obtain ⟨locked, same⟩ := holdingsleep_iff.mp holds
      by_cases new : lk' = lk
      · subst new
        simp only [update_self] at same
        exact .inl (inv.pids.unique p p' same (Int.ne_of_gt pidBound.1)).symm
      · simp only [update_of_ne new] at locked same
        exact .inr (busy_iff.mpr (.inr (.inr ⟨lk', holdingsleep_iff.mpr ⟨locked, same⟩⟩)))
    intro lk' locked
    by_cases new : lk' = lk
    · subst new
      simpa using pidBound
    · simp only [update_of_ne new] at locked ⊢
      exact inv.lockPids lk' locked
  | releases _ lk _ kstep =>
    have kept : ∀ lk', ((update s.locks lk { locked := false, pid := 0 }) lk').locked →
        lk' ≠ lk := by
      rintro lk' locked rfl
      simp at locked
    refine FsInv.onKernel_steady (s := { s with
      locks := update s.locks lk { locked := false, pid := 0 } }) ?_ kstep rfl
      rfl rfl
    refine inv.relax (fun p busy => busy_iff.mpr ?_) (fun lk' locked => ?_) inv.counted
    · rcases busy_iff.mp busy with ops | committing | ⟨lk', holds⟩
      · exact .inl ops
      · exact .inr (.inl committing)
      obtain ⟨locked, same⟩ := holdingsleep_iff.mp holds
      simp only [update_of_ne (kept lk' locked)] at locked same
      exact .inr (.inr ⟨lk', holdingsleep_iff.mpr ⟨locked, same⟩⟩)
    · have other := kept lk' locked
      simpa only [update_of_ne other, and_true] using locked
  | stops _ _ _ called => exact inv.stop called

end FsInv

end FsKernel

theorem fsBoot_inv : (fsBoot n).FsInv := by
  have idle : ∀ p, (fsBoot n).busy p = false := by
    simp [FsKernel.busy, fsBoot, FsKernel.holdingsleep]
  refine ⟨boot_inv, boot_pidInv, fun p busy => ?_, fun p busy => ?_, fun lk locked => ?_, ?_⟩
  · simp [idle p] at busy
  · simp [idle p] at busy
  · cases locked
  · simp [fsBoot]

/-- Dropping a process strands nothing.  In any run in which no process inside a file system
operation or holding a sleep-lock is overtaken by its deadline, no late process begins one, and
the thread loop never goes on to a second thread, the log counts exactly the operations in
progress, and a `DROPPED` process is inside none and holds no sleep-lock. -/
theorem dropped_holds_nothing (n : Nat) (s : FsKernel n) (run : Run FsKernel.step
      (fun s act => s.reenters act = false ∧ s.overruns act = false) (fsBoot n) s) :
    s.log.outstanding = ∑ p, (s.ops p : Int) ∧
      ∀ p, (s.kernel.procs p).state = .dropped →
        s.ops p = 0 ∧ s.committer ≠ some p ∧ ∀ lk, s.holdingsleep p lk = false := by
  have inv : s.FsInv := run.invariant fsBoot_inv
    fun inv legal ran => inv.step legal.1 legal.2 ran
  refine ⟨inv.counted, fun p dropped => ?_⟩
  have notBusy : s.busy p = false := by
    by_contra busy
    have live := inv.live p (by simpa using busy)
    rw [dropped] at live
    cases live
  simpa [FsKernel.busy, and_assoc] using notBusy

/-- The first process forks a child with deadline 1, which runs on CPU `c'` up to a system call. -/
def lateCaller (c c' : Fin n) : List (FsAction n) :=
  (traps c ++ forkOne c (some 1) ++ traps c').map .kernel

/-- A child that ends its operation and releases its lock before its deadline
comes, and is then dropped. -/
theorem dropped_holds_nothing_released :
    ∃ s : FsKernel 2,
      Run FsKernel.step
        (fun s act => s.reenters act = false ∧ s.overruns act = false) (fsBoot 2) s ∧
      (s.kernel.procs 1).state = .dropped ∧
      s.log.outstanding = ∑ p, (s.ops p : Int) ∧
        ∀ p, (s.kernel.procs p).state = .dropped →
          s.ops p = 0 ∧ s.committer ≠ some p ∧ ∀ lk, s.holdingsleep p lk = false := by
  obtain ⟨s, run, dropped⟩ := exists_run_of_runChecked FsKernel.step
    (fun s act => s.reenters act = false ∧ s.overruns act = false) (fsBoot 2)
    (lateCaller 0 1 ++
      [.beginOp 1, .acquiresleep 1 0, .logWrite 1 45, .releasesleep 1 0, .endOp 1, .endCommit 1,
        .kernel (.clockintr 0), .kernel (.proc 1 .preempt)])
    (P := fun s => (s.kernel.procs 1).state = .dropped) (by decide +kernel)
  exact ⟨s, run, dropped, dropped_holds_nothing 2 s run⟩

/-- The deadline of the child comes while it is inside an operation and holds a buffer; the
scheduler drops it, `log.outstanding` stays 1 and the buffer stays locked. -/
theorem dropped_inside_operation :
    ∃ s : FsKernel 2, Run FsKernel.step (fun _ _ => True) (fsBoot 2) s ∧
      (s.kernel.procs 1).state = .dropped ∧ s.ops 1 = 1 ∧ s.log.outstanding = 1 ∧
        s.holdingsleep 1 0 :=
  exists_run_of_runFrom _ _ (lateCaller 0 1 ++
      [.beginOp 1, .acquiresleep 1 0, .kernel (.clockintr 0),
        .kernel (.proc 1 .preempt)]) (by decide +kernel)

/-- If no busy process is late and the thread loop re-enters none, a sleep-lock has one holder,
which is live. -/
theorem sleeplock_exclusive {n : Nat} {s : FsKernel n} (run : Run FsKernel.step
    (fun s act => s.reenters act = false ∧ s.overruns act = false) (fsBoot n) s)
    {p p' : ProcId} {lk : LockId} (holds : s.holdingsleep p lk) (holds' : s.holdingsleep p' lk) :
    p' = p ∧ (s.kernel.procs p).state.live := by
  have inv : s.FsInv := run.invariant fsBoot_inv
    fun inv legal ran => inv.step legal.1 legal.2 ran
  obtain ⟨locked, pid⟩ := FsKernel.holdingsleep_iff.mp holds
  obtain ⟨-, pid'⟩ := FsKernel.holdingsleep_iff.mp holds'
  have pos := (inv.lockPids lk locked).1
  refine ⟨inv.pids.unique p' p (pid'.symm.trans pid) ?_, inv.live p ?_⟩
  · rw [← pid']
    exact Int.ne_of_gt pos
  · exact FsKernel.busy_iff.mpr (.inr (.inr ⟨lk, holds⟩))

theorem sleeplock_exclusive_child :
    ∃ s : FsKernel 2, s.holdingsleep 1 0 ∧ (s.kernel.procs 1).state.live := by
  obtain ⟨s, run, holds⟩ := exists_run_of_runChecked FsKernel.step
    (fun s act => s.reenters act = false ∧ s.overruns act = false) (fsBoot 2)
    (lateCaller 0 1 ++ [.acquiresleep 1 0])
    (P := (·.holdingsleep 1 0 = true)) (by decide +kernel)
  exact ⟨s, holds, (sleeplock_exclusive run holds holds).2⟩

end CustomXv6

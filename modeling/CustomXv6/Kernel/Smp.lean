/-
Module: CustomXv6.Kernel.Smp
Purpose: sleep, wakeup, kill, yield, sched and scheduler, one lock operation at a time.
Trusted boundary: human-reviewed spec
Main exports: Smp.Machine.step
-/
import CustomXv6.Kernel.System
import Mathlib.Data.Fintype.Sum
import Mathlib.Tactic.DeriveFintype

namespace CustomXv6

open Function

namespace Smp

/-!
A step takes or gives up one lock, with the code between this operation and the one before it;
what is stored in a critical section is stored with the `release` that ends it.  A CPU that
finds a lock taken has no step.

The processes have no threads and are there from the start; `fork`, `exit` and `wait` only
touch entries that are `UNUSED`, `USED` or `ZOMBIE`, or the process that calls them.  Code
outside the modelled functions is one frame, from which a process takes and gives up the locks
of conditions and calls the modelled functions at any time.
-/

/-! ### The data -/

/-- The spin locks: `p->lock`, `pq.lock`, `q.lock`, and the locks of the conditions that
processes wait for. -/
inductive Lock (m : Nat) where
  | proc (p : ProcId)
  | pq
  | q
  | lk (k : Fin m)
deriving DecidableEq, Fintype

/-- An activation on a kernel stack, with the place where it goes on. -/
inductive Frame (m : Nat) where
  /-- code of a process that is not detailed; user mode counts as this code too -/
  | kernel
  /-- an interrupt handler, in `kerneltrap` -/
  | handler
  /-- `forkret`, at `release(&myproc()->lock)` -/
  | forkret
  /-- `sleep(chan, lk)` at `acquire(&p->lock)` -/
  | sleep (chan : Chan) (k : Fin m)
  /-- at `release(lk)` -/
  | sleepLocked (chan : Chan) (k : Fin m)
  /-- at `p->chan = chan` -/
  | sleepStore (chan : Chan) (k : Fin m)
  /-- in `sched`, after `swtch` -/
  | sleepResume (k : Fin m) (intena : Bool)
  /-- at `acquire(lk)` -/
  | sleepReacquire (k : Fin m)
  /-- `yield` at `acquire(&p->lock)` -/
  | yield
  /-- at `p->state = RUNNABLE` -/
  | yieldLocked
  /-- in `sched`, after `swtch` -/
  | yieldResume (intena : Bool)
  /-- the loop of `wakeup(chan)` at entry `p`, in front of `p != myproc()` -/
  | wakeup (chan : Chan) (p : ProcId)
  /-- behind `acquire(&p->lock)` -/
  | wakeupLocked (chan : Chan) (p : ProcId)
  /-- the loop of `kill(pid)` at entry `p`, in front of `acquire(&p->lock)` -/
  | kill (pid : Int) (p : ProcId)
  /-- behind it -/
  | killLocked (pid : Int) (p : ProcId)
deriving DecidableEq, Repr

/-- The fields of `struct proc` that the modelled functions use.  `context` is the kernel
stack that `p->context` leads to; while a CPU runs the process, its stack is there. -/
structure Task (m : Nat) where
  state : ProcState
  chan : Option Chan
  killed : Bool
  pid : Int
  usage : CpuUsage
  context : List (Frame m)

/-- The places of `scheduler` at which it takes or gives up a lock. -/
inductive SchedPoint where
  /-- the scan at entry `p`: at `acquire(&pq.lock)`, `acquire(&p->lock)`,
  `pq_check_and_push` and `release(&pq.lock)` -/
  | scan (p : ProcId)
  | scanPq (p : ProcId)
  | scanProc (p : ProcId)
  | scanned (p : ProcId)
  /-- the loop that pops: at `acquire(&pq.lock)` and in front of `pq_pop` -/
  | popPq
  | popping
  /-- in `pq_pop`: at `acquire(&min->lock)` and `min->state = CHOSEN_TO_RUN` -/
  | popped (p : ProcId)
  | choosing (p : ProcId)
  /-- behind `pq_pop`: at `acquire(&chosen_p->lock)`, the test of the deadline and
  `release(&pq.lock)` -/
  | chosen (p : ProcId)
  | testing (p : ProcId)
  | tested (p : ProcId) (flag : Bool)
  /-- at `acquire(&q.lock)` and `pop` -/
  | popQ
  | poppingQ
  /-- with `chosen_p` set: at `acquire(&p->lock)` and `p->state = RUNNING` -/
  | dispatch (p : ProcId)
  | dispatching (p : ProcId)
  /-- in `swtch`: the CPU runs the process -/
  | swtched (p : ProcId)
  /-- behind `swtch`; at `acquire(&q.lock)`, `enqueue` and `c->proc = 0` -/
  | returned (p : ProcId)
  | parking (p : ProcId)
  | parked (p : ProcId)
  | leaving (p : ProcId)
deriving DecidableEq, Repr

/-- `struct cpu`, the interrupt enable bit of the CPU, where its scheduler is, and the
kernel stack it executes: that of the process in `swtch`, otherwise the handlers that
interrupted the scheduler. -/
structure Core (m : Nat) where
  proc : Option ProcId
  noff : Nat
  intena : Bool
  intr : Bool
  panicked : Bool
  point : SchedPoint
  frames : List (Frame m)

/-- The machine.  `locks` says which CPU holds a lock (`lk->locked` and `lk->cpu`). -/
structure Machine (n m : Nat) where
  locks : Lock m → Option (Fin n)
  cpus : Fin n → Core m
  procs : ProcId → Task m
  pq : PriorityQueue
  q : Queue
  ticks : UInt32

/-- What code that is not detailed does next. -/
inductive Call (m : Nat) where
  | acquire (k : Fin m)
  | release (k : Fin m)
  | sleep (chan : Chan) (k : Fin m)
  | wakeup (chan : Chan)
  | kill (pid : Int)
  | yield
  /-- `usertrap`, up to the test of the deadline -/
  | usertrap
  /-- the `intr_on` of `usertrap` -/
  | intrOn
  /-- the end of `usertrap` and the `intr_off` of `usertrapret` -/
  | usertrapret
  /-- `clockintr` -/
  | clockintr
  /-- the end of `kerneltrap` -/
  | iret
deriving DecidableEq, Repr

/-! ### Spin locks -/

namespace Core

variable {m : Nat}

def pushOff (core : Core m) : Core m :=
  { core with
    intr := false
    intena := if core.noff = 0 then core.intr else core.intena
    noff := core.noff + 1 }

/-- `pop_off`, where it does not panic. -/
def popOff (core : Core m) : Core m :=
  { core with
    noff := core.noff - 1
    intr := if core.noff - 1 = 0 ∧ core.intena then true else core.intr }

def goto (point : SchedPoint) (core : Core m) : Core m := { core with point := point }

/-- The code on the stack goes on elsewhere. -/
def setFrames (frames : List (Frame m)) (core : Core m) : Core m := { core with frames := frames }

/-- The head of the loop of `scheduler`, with its `intr_on`. -/
def restart (core : Core m) : Core m :=
  { core with proc := none, point := .scan 0, intr := true }

end Core

namespace Machine

variable {n m : Nat}

def setProc (s : Machine n m) (p : ProcId) (x : Task m) : Machine n m :=
  { s with procs := update s.procs p x }

def setCore (s : Machine n m) (c : Fin n) (core : Core m) : Machine n m :=
  { s with cpus := update s.cpus c core }

def panic (s : Machine n m) (c : Fin n) : Machine n m :=
  s.setCore c { s.cpus c with panicked := true }

/-- CPU `c` has taken a lock, or given it up, and is in state `core`. -/
def setLock (s : Machine n m) (lock : Lock m) (holder : Option (Fin n)) (c : Fin n)
    (core : Core m) : Machine n m :=
  { s with locks := update s.locks lock holder, cpus := update s.cpus c core }

section Fields

variable (s : Machine n m) (p : ProcId) (x : Task m) (c : Fin n) (core : Core m) (lock : Lock m)
  (holder : Option (Fin n))

@[simp] theorem setProc_locks : (s.setProc p x).locks = s.locks := rfl

@[simp] theorem setProc_cpus : (s.setProc p x).cpus = s.cpus := rfl

@[simp] theorem setProc_procs : (s.setProc p x).procs = update s.procs p x := rfl

@[simp] theorem setCore_locks : (s.setCore c core).locks = s.locks := rfl

@[simp] theorem setCore_cpus : (s.setCore c core).cpus = update s.cpus c core := rfl

@[simp] theorem setCore_procs : (s.setCore c core).procs = s.procs := rfl

@[simp] theorem setLock_locks :
    (s.setLock lock holder c core).locks = update s.locks lock holder := rfl

@[simp] theorem setLock_cpus : (s.setLock lock holder c core).cpus = update s.cpus c core := rfl

@[simp] theorem setLock_procs : (s.setLock lock holder c core).procs = s.procs := rfl

end Fields

/-- `acquire(lock)`, and where the CPU goes on with the lock.  To take a lock twice is a
panic. -/
def acquire (s : Machine n m) (c : Fin n) (lock : Lock m) (next : Core m → Core m) :
    Option (Machine n m) :=
  match s.locks lock with
  | none => some (s.setLock lock (some c) c (next (s.cpus c).pushOff))
  | some holder => if holder = c then some (s.panic c) else none

/-- `release(lock)`, and where the CPU goes on.  It panics unless the CPU holds the lock,
and in `pop_off`. -/
def release (s : Machine n m) (c : Fin n) (lock : Lock m) (next : Core m → Core m) :
    Machine n m :=
  if s.locks lock = some c ∧ (s.cpus c).intr = false ∧ 1 ≤ (s.cpus c).noff then
    s.setLock lock none c (next (s.cpus c).popOff)
  else s.panic c

/-! ### The scheduler -/

/-- The keys of the heap. -/
def usage (s : Machine n m) (p : ProcId) : CpuUsage := (s.procs p).usage

/-- What the scheduler does after `swtch`, and where it goes on: the accounting and the
tests of deadline and quota.  The process has no threads. -/
def limits (s : Machine n m) (p : ProcId) : Task m × SchedPoint :=
  let charged := (s.usage p).addRun s.ticks
  let x : Task m := { s.procs p with usage := charged }
  if charged.deadline ≤ s.ticks ∧ x.state = .runnable then
    ({ x with state := .dropped }, .leaving p)
  else if charged.quota ≤ charged.sumOfTicks ∧ x.state = .runnable then
    ({ x with state := .passedQuota }, .parking p)
  else (x, .leaving p)

/-- The next step of `scheduler` on CPU `c`. -/
def scheduler (s : Machine n m) (c : Fin n) : SchedPoint → Option (Machine n m)
  | .scan p => s.acquire c .pq (Core.goto (.scanPq p))
  | .scanPq p => s.acquire c (.proc p) (Core.goto (.scanProc p))
  | .scanProc p =>
    match pqCheckAndPush s.usage (s.procs p).state s.pq p with
    | none => some (s.panic c)
    | some (_, pq) => some ({ s with pq := pq }.release c (.proc p) (Core.goto (.scanned p)))
  | .scanned p =>
    some (s.release c .pq (Core.goto
      (match nextSlot p with
      | some p' => .scan p'
      | none => .popPq)))
  | .popPq => s.acquire c .pq (Core.goto .popping)
  | .popping =>
    match pqPop s.usage s.pq with
    | none => some (s.release c .pq (Core.goto .popQ))
    | some (p, pq) => some ({ s with pq := pq }.setCore c ((s.cpus c).goto (.popped p)))
  | .popped p => s.acquire c (.proc p) (Core.goto (.choosing p))
  | .choosing p =>
    some ((s.setProc p { s.procs p with state := .chosenToRun }).release c (.proc p)
      (Core.goto (.chosen p)))
  | .chosen p => s.acquire c (.proc p) (Core.goto (.testing p))
  | .testing p =>
    if (s.usage p).deadline ≤ s.ticks then
      some ((s.setProc p { s.procs p with state := .dropped }).release c (.proc p)
        (Core.goto (.tested p false)))
    else some (s.release c (.proc p) (Core.goto (.tested p true)))
  | .tested p flag =>
    some (s.release c .pq (Core.goto (if flag then .dispatch p else .popPq)))
  | .popQ => s.acquire c .q (Core.goto .poppingQ)
  | .poppingQ =>
    match pop s.q with
    | (none, q) => some ({ s with q := q }.release c .q Core.restart)
    | (some p, q) => some ({ s with q := q }.release c .q (Core.goto (.dispatch p)))
  | .dispatch p => s.acquire c (.proc p) (Core.goto (.dispatching p))
  | .dispatching p =>
    -- `swtch` loads the stack of the process, which still has to release `p->lock`.
    some ((s.setProc p { s.procs p with
        state := .running, usage := (s.usage p).startRun s.ticks }).setCore c
      { s.cpus c with proc := some p, point := .swtched p, frames := (s.procs p).context })
  | .swtched _ => none
  | .returned p =>
    some ((s.setProc p (s.limits p).1).setCore c ((s.cpus c).goto (s.limits p).2))
  | .parking p => s.acquire c .q (Core.goto (.parked p))
  | .parked p => some ({ s with q := (enqueue s.q p).2 }.release c .q (Core.goto (.leaving p)))
  | .leaving p =>
    let x := s.procs p
    some ((s.setProc p (if x.state = .running then { x with state := .runnable } else x)).release
      c (.proc p) Core.restart)

/-! ### The code of processes and handlers -/

/-- `sched` called by process `p`, whose record is `x` by now.  `resume` is the frame that
goes on after `swtch`, with the saved `intena`. -/
def sched (s : Machine n m) (c : Fin n) (p : ProcId) (x : Task m) (resume : Bool → Frame m)
    (rest : List (Frame m)) : Machine n m :=
  let core := s.cpus c
  if s.locks (.proc p) = some c ∧ core.noff = 1 ∧ x.state ≠ .running ∧ core.intr = false then
    (s.setProc p { x with
        usage := x.usage.charge s.ticks
        context := resume core.intena :: rest }).setCore c
      { core with point := .returned p, frames := [] }
  else (s.setProc p x).panic c

/-- `sched`, and what the scheduler does when it returns from `swtch`, are those of `Kernel`
for a process without threads, if the clock stands still meanwhile. -/
theorem sched_kernel {s : Machine n m} {k : Kernel n} {c : Fin n} {p : ProcId} {x : Task m}
    {y : Proc} {resume : Bool → Frame m} {rest : List (Frame m)} (still : k.stale = 0)
    (ticks : k.ticks = s.ticks) (state : y.state = x.state) (usage : y.usageTime = some x.usage)
    (held : s.locks (.proc p) = some c) (single : (s.cpus c).noff = 1)
    (stopped : x.state ≠ .running) (off : (s.cpus c).intr = false) :
    ((k.sched c p none y).procs p).state = ((s.sched c p x resume rest).limits p).1.state ∧
      ((k.sched c p none y).procs p).usageTime =
        some ((s.sched c p x resume rest).limits p).1.usage ∧
      (k.sched c p none y).q = if ((s.sched c p x resume rest).limits p).2 = .parking p then
        (enqueue k.q p).2 else k.q := by
  have clock : ∀ read, k.ticksAt read = s.ticks := by
    intro read
    rw [Kernel.ticksAt, still, if_neg (Nat.not_lt_zero read), ticks]
  have stored : (s.sched c p x resume rest).ticks = s.ticks ∧
      (s.sched c p x resume rest).procs p = { x with
        usage := x.usage.charge s.ticks, context := resume (s.cpus c).intena :: rest } := by
    rw [sched, if_pos ⟨held, single, stopped, off⟩]
    exact ⟨rfl, update_self ..⟩
  simp only [limits, Machine.usage, stored, Kernel.sched, usage, clock, Kernel.limits, ticks,
    state, Kernel.afterSwtch, Kernel.leave, CpuUsage.charge]
  split
  · simp
  split
  · simp
  · simp

/-- The critical section of `wakeup(chan)` on an entry. -/
def wakeupProc (chan : Chan) (x : Task m) : Task m :=
  if x.state = .sleeping ∧ x.chan = some chan then { x with state := .runnable } else x

/-- The stores of `kill` into the process it found. -/
def killProc (x : Task m) : Task m :=
  { x with killed := true, state := if x.state = .sleeping then .runnable else x.state }

/-- The next entry of a loop over the process table, or the return to the caller. -/
def loop (again : ProcId → Frame m) (p : ProcId) (rest : List (Frame m)) : List (Frame m) :=
  match nextSlot p with
  | some p' => again p' :: rest
  | none => rest

/-- The next step of the code on top of the stack, on a CPU with `c->proc = self`. -/
def runSelf (s : Machine n m) (c : Fin n) (self : ProcId) (rest : List (Frame m)) :
    Frame m → Option (Machine n m)
  | .forkret => some (s.release c (.proc self) (Core.setFrames (.kernel :: rest)))
  | .sleep chan k => s.acquire c (.proc self) (Core.setFrames (.sleepLocked chan k :: rest))
  | .sleepLocked chan k => some (s.release c (.lk k) (Core.setFrames (.sleepStore chan k :: rest)))
  | .sleepStore chan k =>
    some (s.sched c self { s.procs self with chan := some chan, state := .sleeping }
      (.sleepResume k) rest)
  | .sleepResume k intena =>
    some (((s.setProc self { s.procs self with chan := none }).setCore c
      { s.cpus c with intena := intena }).release c (.proc self)
        (Core.setFrames (.sleepReacquire k :: rest)))
  | .yield => s.acquire c (.proc self) (Core.setFrames (.yieldLocked :: rest))
  | .yieldLocked =>
    some (s.sched c self { s.procs self with state := .runnable } .yieldResume rest)
  | .yieldResume intena =>
    some ((s.setCore c { s.cpus c with intena := intena }).release c (.proc self)
      (Core.setFrames rest))
  | _ => none

/-- The next step of the code on top of the stack.  Where it reads `myproc()` and there
is no process, it faults. -/
def run (s : Machine n m) (c : Fin n) (frame : Frame m) (rest : List (Frame m)) :
    Option (Machine n m) :=
  match frame with
  | .kernel => none
  | .handler => none
  | .sleepReacquire k => s.acquire c (.lk k) (Core.setFrames rest)
  | .wakeup chan p =>
    if (s.cpus c).proc = some p then
      some (s.setCore c ((s.cpus c).setFrames (loop (.wakeup chan) p rest)))
    else s.acquire c (.proc p) (Core.setFrames (.wakeupLocked chan p :: rest))
  | .wakeupLocked chan p =>
    some ((s.setProc p (wakeupProc chan (s.procs p))).release c (.proc p)
      (Core.setFrames (loop (.wakeup chan) p rest)))
  | .kill pid p => s.acquire c (.proc p) (Core.setFrames (.killLocked pid p :: rest))
  | .killLocked pid p =>
    if (s.procs p).pid = pid then
      some ((s.setProc p (killProc (s.procs p))).release c (.proc p) (Core.setFrames rest))
    else some (s.release c (.proc p) (Core.setFrames (loop (.kill pid) p rest)))
  | frame =>
    match (s.cpus c).proc with
    | none => some (s.panic c)
    | some self => s.runSelf c self rest frame

/-- The calls of code of processes and handlers alike. -/
def callAny (s : Machine n m) (c : Fin n) (frames : List (Frame m)) :
    Call m → Option (Machine n m)
  | .acquire k => s.acquire c (.lk k) id
  | .release k => some (s.release c (.lk k) id)
  | .wakeup chan => some (s.setCore c ((s.cpus c).setFrames (.wakeup chan 0 :: frames)))
  | .yield =>
    if (s.cpus c).proc = none then none
    else some (s.setCore c ((s.cpus c).setFrames (.yield :: frames)))
  | .clockintr => if c.val = 0 then some { s with ticks := s.ticks + 1 } else none
  | _ => none

/-- The calls of a process.  In user mode and where `usertrap` turns interrupts on, no
lock is held. -/
def callKernel (s : Machine n m) (c : Fin n) (self : ProcId) (frames : List (Frame m)) :
    Call m → Option (Machine n m)
  | .sleep chan k => some (s.setCore c ((s.cpus c).setFrames (.sleep chan k :: frames)))
  | .kill pid => some (s.setCore c ((s.cpus c).setFrames (.kill pid 0 :: frames)))
  | .usertrap =>
    if (s.cpus c).noff = 0 then
      let x : Task m := { s.procs self with usage := (s.usage self).charge s.ticks }
      let core : Core m := { s.cpus c with intr := false }
      if x.usage.deadline ≤ s.ticks then
        some ((s.setProc self { x with state := .dropped }).setCore c
          (core.setFrames (.yield :: frames)))
      else some ((s.setProc self x).setCore c core)
    else none
  | .intrOn =>
    if (s.cpus c).noff = 0 then some (s.setCore c { s.cpus c with intr := true }) else none
  | .usertrapret =>
    let x := s.procs self
    some ((s.setProc self { x with usage := { x.usage with lastSchedTick := s.ticks } }).setCore c
      { s.cpus c with intr := false })
  | call => s.callAny c frames call

/-- A call of the code on top of the stack `frame :: rest`.  The handlers return with
their locks given up, and the `sret` that follows turns interrupts on again. -/
def call (s : Machine n m) (c : Fin n) (rest : List (Frame m)) (frame : Frame m)
    (call : Call m) : Option (Machine n m) :=
  match frame with
  | .kernel => (s.cpus c).proc.bind fun self => s.callKernel c self (frame :: rest) call
  | .handler =>
    match call with
    | .iret =>
      if (s.cpus c).noff = 0 then
        some (s.setCore c { s.cpus c with intr := true, frames := rest })
      else none
    | call => s.callAny c (frame :: rest) call
  | _ => none

end Machine

/-! ### Steps -/

/-- What can happen next: the code of a CPU goes on, code that is not detailed makes a
call, or a CPU takes an interrupt. -/
inductive Action (n m : Nat) where
  | exec (c : Fin n)
  | call (c : Fin n) (call : Call m)
  | interrupt (c : Fin n)
deriving DecidableEq, Repr

def Action.cpu {n m : Nat} : Action n m → Fin n
  | .exec c => c
  | .call c _ => c
  | .interrupt c => c

namespace Machine

variable {n m : Nat}

/-- One step of a CPU that has not panicked. -/
def perform (s : Machine n m) : Action n m → Option (Machine n m)
  | .exec c =>
    match (s.cpus c).frames with
    | [] => s.scheduler c (s.cpus c).point
    | frame :: rest => s.run c frame rest
  | .call c call =>
    match (s.cpus c).frames with
    | [] => none
    | frame :: rest => s.call c rest frame call
  | .interrupt c =>
    if (s.cpus c).intr then
      some (s.setCore c { s.cpus c with
        intr := false, frames := .handler :: (s.cpus c).frames })
    else none

def step (s : Machine n m) (act : Action n m) : Option (Machine n m) :=
  if (s.cpus act.cpu).panicked then none else s.perform act

/-- The CPUs enter `scheduler`: no lock is held, nothing is queued, and every process is
new, at `forkret`. -/
structure Starts (s : Machine n m) : Prop where
  locks : ∀ lock, s.locks lock = none
  cpus : ∀ c, s.cpus c =
    { proc := none, noff := 0, intena := false, intr := true, panicked := false
      point := .scan 0, frames := [] }
  pq : s.pq = pqInit
  q : s.q = initializeQueue
  state : ∀ p, (s.procs p).state ∈ [.unused, .used, .runnable, .zombie, .dropped]
  context : ∀ p, (s.procs p).context = [.forkret]

/-- The process that a step makes runnable, if the step is the critical section of a
`wakeup` or `kill` that finds it asleep. -/
def wakes (s : Machine n m) : Action n m → Option ProcId
  | .exec c =>
    match (s.cpus c).frames with
    | .wakeupLocked chan p :: _ =>
      if (s.procs p).state = .sleeping ∧ (s.procs p).chan = some chan then some p else none
    | .killLocked pid p :: _ =>
      if (s.procs p).pid = pid ∧ (s.procs p).state = .sleeping then some p else none
    | _ => none
  | _ => none

end Machine

end Smp

end CustomXv6

/-
Module: CustomXv6.Kernel.System
Purpose: The kernel as a system: the scheduler, processes and interrupts, by critical sections.
Trusted boundary: human-reviewed spec
Main exports: Kernel, Kernel.schedulerStep, Kernel.procAction, boot
-/
import CustomXv6.Kernel.PriorityQueue
import CustomXv6.Kernel.Threads

namespace CustomXv6

open Transition
open Function

/-!
A step of the model is an outermost critical section: what one CPU does from the first
`acquire` to the last `release`.  `swtch` does not release `p->lock`, so a dispatch ends in the
process that was switched to, and giving up the CPU ends in the scheduler, after the
accounting, the limit tests and the rest of the thread loop.

Between two steps no lock is held.  A CPU that panics keeps its locks, so no other CPU sees
again the process it was working on: the model leaves it as it was before the section, or as
the process that the CPU runs.
-/

/-- Where the scheduler found the process it is about to dispatch.  The code
keeps only the pointer `chosen_p`. -/
inductive Source where
  | pq
  | q
deriving DecidableEq, Repr

inductive Panic where
  /-- `panic("Priority queue overflow")`. -/
  | pqOverflow
  /-- `panic("init exiting")`. -/
  | initExiting
  /-- A kernel page fault, `panic("kerneltrap")`. -/
  | nullPointer
  /-- `panic("log.committing")`. -/
  | logCommitting
  /-- `panic("too big a transaction")`. -/
  | bigTransaction
  /-- `panic("log_write outside of trans")`. -/
  | logOutsideTrans
deriving DecidableEq, Repr

/-- Where a CPU is in the loop of `scheduler`. -/
inductive SchedPc where
  /-- The scan of the process table has reached entry `p`. -/
  | scan (p : ProcId)
  /-- At the head of the loop that pops from `pq`. -/
  | popPq
  /-- `pq` was empty; pop from `q`. -/
  | popQ
  /-- `chosen_p` is set and has not been dispatched. -/
  | chosen (p : ProcId) (src : Source)
  /-- Inside `swtch`, called for thread `t` by the thread loop, or from the
  branch for processes without threads. -/
  | swtched (t : Option ThreadId)
  | panicked (reason : Panic)
deriving DecidableEq, Repr

/-- `struct cpu` with the position of its scheduler. -/
structure Cpu where
  proc : Option ProcId
  pc : SchedPc
deriving DecidableEq, Repr

/-- The kernel on `n` CPUs. -/
structure Kernel (n : Nat) where
  procs : ProcId → Proc
  pq : PriorityQueue
  q : Queue
  cpus : Fin n → Cpu
  ticks : UInt32
  /-- How many reads of `ticks` in `sched` and after its `swtch` came before the last `ticks++`,
  if that fell between them. -/
  stale : Nat
  nextpid : Int
  initproc : ProcId

variable {n : Nat}

namespace Kernel

def setProc (s : Kernel n) (p : ProcId) (x : Proc) : Kernel n :=
  { s with procs := update s.procs p x }

def setCpu (s : Kernel n) (c : Fin n) (cpu : Cpu) : Kernel n :=
  { s with cpus := update s.cpus c cpu }

def setPc (s : Kernel n) (c : Fin n) (pc : SchedPc) : Kernel n :=
  s.setCpu c { s.cpus c with pc := pc }

def panic (s : Kernel n) (c : Fin n) (reason : Panic) : Kernel n := s.setPc c (.panicked reason)

/-- `ticks` as `sched` reads it for the sum (0) and for `last_sched_tick` (1), and `scheduler` for
the sum after `swtch` (2).  CPU 0 can execute `ticks++` between two of these reads. -/
def ticksAt (s : Kernel n) (read : Nat) : UInt32 :=
  if read < s.stale then s.ticks - 1 else s.ticks

/-- The usage records the heap compares, with a default behind null
pointers. -/
def usage (s : Kernel n) (p : ProcId) : CpuUsage := (s.procs p).usageTime.getD default

/-- A read of `usage_time` through one of these processes faults. -/
def readsNull (s : Kernel n) (reads : List ProcId) : Bool :=
  reads.any fun p => (s.procs p).usageTime.isNone

section Fields

variable (s : Kernel n) (p : ProcId) (x : Proc) (c : Fin n) (cpu : Cpu)

@[simp] theorem setProc_procs : (s.setProc p x).procs = update s.procs p x := rfl

@[simp] theorem setProc_cpus : (s.setProc p x).cpus = s.cpus := rfl

@[simp] theorem setProc_pq : (s.setProc p x).pq = s.pq := rfl

@[simp] theorem setProc_q : (s.setProc p x).q = s.q := rfl

@[simp] theorem setProc_ticks : (s.setProc p x).ticks = s.ticks := rfl

@[simp] theorem setProc_nextpid : (s.setProc p x).nextpid = s.nextpid := rfl

@[simp] theorem setProc_initproc : (s.setProc p x).initproc = s.initproc := rfl

@[simp] theorem setCpu_procs : (s.setCpu c cpu).procs = s.procs := rfl

@[simp] theorem setCpu_cpus : (s.setCpu c cpu).cpus = update s.cpus c cpu := rfl

@[simp] theorem setCpu_pq : (s.setCpu c cpu).pq = s.pq := rfl

@[simp] theorem setCpu_q : (s.setCpu c cpu).q = s.q := rfl

@[simp] theorem setCpu_ticks : (s.setCpu c cpu).ticks = s.ticks := rfl

@[simp] theorem setCpu_nextpid : (s.setCpu c cpu).nextpid = s.nextpid := rfl

@[simp] theorem setCpu_initproc : (s.setCpu c cpu).initproc = s.initproc := rfl

end Fields

def scanStep (s : Kernel n) (c : Fin n) (p : ProcId) : Kernel n :=
  match pqCheckAndPush s.usage (s.procs p).state s.pq p with
  | none => s.panic c .pqOverflow
  | some (_, pq) =>
    if s.readsNull (pqCheckAndPushReads s.usage (s.procs p).state s.pq p) then
      s.panic c .nullPointer
    else
      { s with pq := pq }.setPc c
        (match nextSlot p with
        | some p' => .scan p'
        | none => .popPq)

/-- One round of the loop that pops from `pq`: `pq_pop`, with its store
`min->state = CHOSEN_TO_RUN`, and the deadline test. -/
def popPqStep (s : Kernel n) (c : Fin n) : Kernel n :=
  match pqPop s.usage s.pq with
  | none => s.setPc c .popQ
  | some (p, pq) =>
    if s.readsNull (pqPopReads s.usage s.pq) then s.panic c .nullPointer
    else
      match (s.procs p).usageTime with
      | none => s.panic c .nullPointer
      | some usage =>
        if usage.deadline ≤ s.ticks then
          { s with pq := pq }.setProc p { s.procs p with state := .dropped }
        else
          ({ s with pq := pq }.setProc p { s.procs p with state := .chosenToRun }).setPc c
            (.chosen p .pq)

/-- The pop from `q`.  With nothing to run the pass ends and the next one
starts. -/
def popQStep (s : Kernel n) (c : Fin n) : Kernel n :=
  match pop s.q with
  | (none, _) => s.setPc c (.scan 0)
  | (some p, q) => { s with q := q }.setPc c (.chosen p .q)

/-- `swtch` to a process: the accounting before it, and the process up to its
first `release(&p->lock)`.  A process that was in `sleep` clears `p->chan`
there; every other process has it clear already. -/
def enter (s : Kernel n) (c : Fin n) (p : ProcId) (t : Option ThreadId) (x : Proc) : Kernel n :=
  match x.usageTime with
  | none => s.panic c .nullPointer
  | some usage =>
    (s.setProc p { x with usageTime := some (usage.startRun s.ticks), chan := none }).setCpu c
      { proc := some p, pc := .swtched t }

/-- The end of a pass. -/
def leave (s : Kernel n) (c : Fin n) (p : ProcId) (x : Proc) : Kernel n :=
  (s.setProc p (if x.state = .running then { x with state := .runnable } else x)).setCpu c
    { proc := none, pc := .scan 0 }

/-- The dispatch of `chosen_p`, up to its first `swtch`. -/
def dispatch (s : Kernel n) (c : Fin n) (p : ProcId) : Kernel n :=
  let x := { s.procs p with state := .running }
  match x.currentThread with
  | none => s.enter c p none x
  | some _ =>
    match x.enterThreads with
    | none => (s.setProc p x).setCpu c { proc := some p, pc := .panicked .nullPointer }
    | some (y, none) => s.leave c p y
    | some (y, some t) => s.enter c p (some t) y

/-- The limit tests after `swtch`.  The source repeats `p->state == RUNNABLE`
on both sides of an `||`, so no other state is tested. -/
def limits (s : Kernel n) (p : ProcId) (x : Proc) (usage : CpuUsage) : Proc × Queue :=
  if usage.deadline ≤ s.ticks ∧ x.state = .runnable then ({ x with state := .dropped }, s.q)
  else if usage.quota ≤ usage.sumOfTicks ∧ x.state = .runnable then
    ({ x with state := .passedQuota }, (enqueue s.q p).2)
  else (x, s.q)

/-- The scheduler from the return of the `swtch` for thread `t`, after the
limit tests, to the end of the pass or to its next `swtch`.  `q` is the quota
queue after those tests. -/
def afterSwtch (s : Kernel n) (c : Fin n) (p : ProcId) (t : Option ThreadId) (x : Proc)
    (q : Queue) : Kernel n :=
  match t with
  | none => { s with q := q }.leave c p x
  | some t =>
    if x.state = .zombie ∨ x.state = .unused then { s with q := q }.leave c p x
    else
      match x.afterSwtch t with
      | none => s.panic c .nullPointer
      | some (y, none) => { s with q := q }.leave c p y
      | some (y, some t') => { s with q := q }.enter c p (some t') y

/-- `sched` called by process `p` with the record `x`, and what the scheduler
does from there on. -/
def sched (s : Kernel n) (c : Fin n) (p : ProcId) (t : Option ThreadId) (x : Proc) : Kernel n :=
  match x.usageTime with
  | none => s.panic c .nullPointer
  | some usage =>
    let stamped := { usage.addRun (s.ticksAt 0) with lastSchedTick := s.ticksAt 1 }
    let charged := stamped.addRun (s.ticksAt 2)
    let (y, q) := s.limits p { x with usageTime := some charged } charged
    s.afterSwtch c p t y q

/-- The next step of the scheduler of CPU `c`, if it is not inside `swtch`. -/
def schedulerStep (s : Kernel n) (c : Fin n) : Option (Kernel n) :=
  match (s.cpus c).pc with
  | .scan p => some (s.scanStep c p)
  | .popPq => some (s.popPqStep c)
  | .popQ => some (s.popQStep c)
  | .chosen p _ => some (s.dispatch c p)
  | .swtched _ => none
  | .panicked _ => none

end Kernel

/-! ### Operations on the process table -/

/-- `wakeup(chan)` called with `myproc() == self`. -/
def wakeup (self : Option ProcId) (chan : Option Chan) (procs : ProcId → Proc) : ProcId → Proc :=
  fun i =>
    if some i ≠ self ∧ (procs i).state = .sleeping ∧ (procs i).chan = chan then
      { procs i with state := .runnable }
    else procs i

/-- Some entry of the table has `p` as its parent. -/
def hasChild (procs : ProcId → Proc) (p : ProcId) : Bool :=
  (List.finRange nproc).any fun i => (procs i).parent = some p

/-- `reparent(p)`, with its calls of `wakeup(initproc)`. -/
def reparent (initproc p : ProcId) (procs : ProcId → Proc) : ProcId → Proc :=
  if hasChild procs p then
    wakeup (some p) (some (.proc initproc)) fun i =>
      if (procs i).parent = some p then { procs i with parent := some initproc } else procs i
  else procs

/-- What `exit` does to the process table before it touches its own entry:
`reparent(p)` and `wakeup(p->parent)`. -/
def orphan (initproc p : ProcId) (procs : ProcId → Proc) : ProcId → Proc :=
  let moved := reparent initproc p procs
  wakeup (some p) ((moved p).parent.map .proc) moved

/-- The child that the search of `wait` stops at. -/
def firstZombie (procs : ProcId → Proc) (p : ProcId) : Option ProcId :=
  (List.finRange nproc).find? fun i => (procs i).parent = some p ∧ (procs i).state = .zombie

/-- The stores of `kill` into the process it found. -/
def killProc (x : Proc) : Proc :=
  { x with killed := true, state := if x.state = .sleeping then .runnable else x.state }

/-- What `allocproc` and the copying part of `fork` store into a new process.
Neither resets `killed`, `parent` or the thread table. -/
def newProc (pid : Int) (frame : Trapframe) (x : Proc) : Proc :=
  { x with
    pid := pid
    state := .used
    trapframe := some { frame with a0 := 0 }
    usageTime := some CpuUsage.fresh
    context := .forkret
    currentThread := none }

/-! ### Steps of a process -/

/-- What a process executing in the kernel does next.  A call that takes
several critical sections is one action for each of them. -/
inductive ProcAction where
  /-- The entry of `usertrap`, up to its first critical section. -/
  | usertrap
  /-- The last `killed(p)` of `usertrap`, when it returns 0. -/
  | killedCheck
  | usertrapret
  | setkilled
  | yield
  /-- The `yield` of `kerneltrap`. -/
  | preempt
  | sleep (chan : Chan)
  | exit (status : Int)
  /-- `fork` or `fork_deadline`, up to the search for a free entry. -/
  | fork (deadline : Option UInt32)
  /-- One round of the search of `allocproc`.  At a free entry it is taken,
  unless one of the allocations that follow fails. -/
  | allocproc (success : Bool)
  | forkParent
  | forkRunnable
  /-- One search of `wait`.  `copyout` says whether the exit status can be
  copied out. -/
  | wait (copyout : Bool)
  | kill (pid : Int)
  | killStep
  | setCpuQuota (pid : Int) (quota : UInt32)
  | quotaStep
  | createThread (startRoutine arg pstack : UInt64) (kalloc1 kalloc2 : Bool)
  | joinThread (tid : Int)
  | exitThread (tid : Int)
deriving DecidableEq, Repr

/-- How an action of a process ends: it goes on executing, it calls `sched`
with the given record, or the CPU panics. -/
inductive Effect (n : Nat) where
  | continues (s : Kernel n)
  | calls (s : Kernel n) (x : Proc)
  | panics (reason : Panic)

namespace Kernel

def setCont (s : Kernel n) (p : ProcId) (cont : Cont) : Kernel n :=
  s.setProc p { s.procs p with context := cont }

/-- The next round of a loop over the process table, or its end. -/
def loopOr (s : Kernel n) (p index : ProcId) (again : ProcId → Cont) : Kernel n :=
  s.setCont p (match nextSlot index with
    | some index' => again index'
    | none => .kernel)

/-- The entry of `usertrap`.  The store of `DROPPED` is made without
`p->lock`. -/
def usertrap (s : Kernel n) (p : ProcId) : Effect n :=
  match (s.procs p).usageTime with
  | none => .panics .nullPointer
  | some usage =>
    let charged := { s.procs p with usageTime := some (usage.charge s.ticks) }
    if usage.deadline ≤ s.ticks then
      .continues (s.setProc p { charged with state := .dropped, context := .trapYield })
    else .continues (s.setProc p { charged with context := .kernel })

/-- The last store of `usertrap`, and `usertrapret`. -/
def usertrapret (s : Kernel n) (p : ProcId) : Effect n :=
  match (s.procs p).usageTime with
  | none => .panics .nullPointer
  | some usage =>
    .continues (s.setProc p
      { s.procs p with
        usageTime := some { usage with lastSchedTick := s.ticks }
        context := .user })

/-- `yield`, after which the process continues at `cont`. -/
def yield (s : Kernel n) (p : ProcId) (cont : Cont) : Effect n :=
  .calls s { s.procs p with state := .runnable, context := cont }

/-- `sleep`, after which the process continues at `cont`. -/
def sleep (s : Kernel n) (p : ProcId) (chan : Chan) (cont : Cont) : Effect n :=
  .calls s { s.procs p with chan := some chan, state := .sleeping, context := cont }

/-- `exit`, from its `acquire(&wait_lock)`. -/
def exit (s : Kernel n) (p : ProcId) (status : Int) : Effect n :=
  if p = s.initproc then .panics .initExiting
  else
    let procs := orphan s.initproc p s.procs
    .calls { s with procs := procs } { procs p with xstate := status, state := .zombie }

/-- The largest `int`.  `allocpid` makes no step beyond it: the overflow of `nextpid` is
undefined. -/
def maxInt : Int := 2 ^ 31 - 1

def allocproc (s : Kernel n) (p : ProcId) (deadline : Option UInt32) (index : ProcId)
    (success : Bool) : Effect n :=
  if (s.procs index).state = .unused then
    let taken := { s with nextpid := s.nextpid + 1 }
    if success then
      match (s.procs p).trapframe with
      | none => .panics .nullPointer
      | some frame =>
        .continues ((taken.setProc index (newProc s.nextpid frame (s.procs index))).setCont p
          (.forkParent deadline index))
    else .continues ((taken.setProc index (freeproc (s.procs index))).setCont p .kernel)
  else .continues (s.loopOr p index (.allocproc deadline))

/-- The last critical section of `fork` and `fork_deadline`. -/
def forkRunnable (s : Kernel n) (p : ProcId) (deadline : Option UInt32) (np : ProcId) :
    Effect n :=
  match deadline with
  | none => .continues ((s.setProc np { s.procs np with state := .runnable }).setCont p .kernel)
  | some deadline =>
    match (s.procs np).usageTime with
    | none => .panics .nullPointer
    | some usage =>
      .continues ((s.setProc np
        { s.procs np with
          state := .runnable
          usageTime := some { usage with deadline := deadline } }).setCont p .kernel)

def wait (s : Kernel n) (p : ProcId) (copyout : Bool) : Effect n :=
  match firstZombie s.procs p with
  | some pp =>
    if copyout then .continues ((s.setProc pp (freeproc (s.procs pp))).setCont p .kernel)
    else .continues (s.setCont p .kernel)
  | none =>
    if hasChild s.procs p = false ∨ (s.procs p).killed then .continues (s.setCont p .kernel)
    else s.sleep p (.proc p) .waitLoop

def killStep (s : Kernel n) (p : ProcId) (pid : Int) (index : ProcId) : Effect n :=
  if (s.procs index).pid = pid then
    .continues ((s.setProc index (killProc (s.procs index))).setCont p .kernel)
  else .continues (s.loopOr p index (.killLoop pid))

def quotaStore (s : Kernel n) (p : ProcId) (quota : UInt32) (target : ProcId) : Effect n :=
  match (s.procs target).usageTime with
  | none => .panics .nullPointer
  | some usage =>
    .continues ((s.setProc target
      { s.procs target with usageTime := some { usage with quota := quota } }).setCont p .kernel)

/-- The accesses of `set_cpu_quota` to the process table, of which only the
second is made under a lock. -/
def quotaStep (s : Kernel n) (p : ProcId) : Option (Effect n) :=
  match (s.procs p).context with
  | .quotaState pid quota index =>
    if (s.procs index).state = .unused then
      some (.continues (s.loopOr p index (.quotaState pid quota)))
    else some (.continues (s.setCont p (.quotaPid pid quota index)))
  | .quotaPid pid quota target =>
    if (s.procs target).pid = pid then
      some (.continues (s.setCont p (.quotaCheck pid quota target)))
    else some (.continues (s.loopOr p target (.quotaState pid quota)))
  | .quotaCheck pid quota target =>
    if (s.procs target).pid = pid then some (.continues (s.setCont p (.quotaStore quota target)))
    else some (.continues (s.setCont p .kernel))
  | .quotaStore quota target => some (s.quotaStore p quota target)
  | _ => none

/-- Continue after a thread call. -/
def threadCall (s : Kernel n) (p : ProcId) : ThreadCall → Effect n
  | .fault => .panics .nullPointer
  | .failed x => .continues (s.setProc p x)
  | .yields x => .continues (s.setProc p { x with context := .threadYield })

end Kernel

/-- Interrupts are enabled: not in user mode, whose interrupts go through
`usertrap`, and not at the start of `usertrap`. -/
def Cont.interruptible : Cont → Bool
  | .user => false
  | .trapYield => false
  | _ => true

namespace Kernel

/-- One action of process `p`, where the process is at a point of its code
that makes it. -/
def procAction (s : Kernel n) (p : ProcId) (act : ProcAction) : Option (Effect n) :=
  match act, (s.procs p).context with
  | .usertrap, .user => some (s.usertrap p)
  | .killedCheck, .kernel =>
    if (s.procs p).killed then none else some (.continues (s.setCont p .returning))
  | .usertrapret, .returning => some (s.usertrapret p)
  | .usertrapret, .forkret => some (.continues (s.setCont p .user))
  | .setkilled, .kernel => some (.continues (s.setProc p { s.procs p with killed := true }))
  | .yield, .trapYield => some (s.yield p .kernel)
  | .yield, .threadYield => some (s.yield p .kernel)
  | .yield, .returning => some (s.yield p .returning)
  | .preempt, cont => if cont.interruptible then some (s.yield p cont) else none
  | .sleep (.proc _), _ => none
  | .sleep chan, .kernel => some (s.sleep p chan .kernel)
  | .sleep chan, .forkret => some (s.sleep p chan .forkret)
  | .exit status, .kernel => some (s.exit p status)
  | .fork deadline, .kernel => some (.continues (s.setCont p (.allocproc deadline 0)))
  | .allocproc success, .allocproc deadline index =>
    if (s.procs index).state = .unused ∧ maxInt ≤ s.nextpid then none
    else some (s.allocproc p deadline index success)
  | .forkParent, .forkParent deadline np =>
    some (.continues ((s.setProc np { s.procs np with parent := some p }).setCont p
      (.forkRunnable deadline np)))
  | .forkRunnable, .forkRunnable deadline np => some (s.forkRunnable p deadline np)
  | .wait copyout, .kernel => some (s.wait p copyout)
  | .wait copyout, .waitLoop => some (s.wait p copyout)
  | .kill pid, .kernel => some (.continues (s.setCont p (.killLoop pid 0)))
  | .killStep, .killLoop pid index => some (s.killStep p pid index)
  | .setCpuQuota pid quota, .kernel =>
    some (.continues (s.setCont p (.quotaState pid quota 0)))
  | .quotaStep, _ => s.quotaStep p
  | .createThread startRoutine arg pstack kalloc1 kalloc2, .kernel =>
    match (s.procs p).createThread startRoutine arg pstack kalloc1 kalloc2 with
    | none => some (.panics .nullPointer)
    | some (_, x) => some (.continues (s.setProc p x))
  | .joinThread tid, .kernel => some (s.threadCall p ((s.procs p).joinThread tid))
  | .exitThread tid, .kernel => some (s.threadCall p ((s.procs p).exitThread tid))
  | _, _ => none

/-- The process a CPU executes, with the loop variable of its scheduler. -/
def executing (s : Kernel n) (c : Fin n) : Option (ProcId × Option ThreadId) :=
  match (s.cpus c).pc with
  | .swtched t => (s.cpus c).proc.map fun p => (p, t)
  | _ => none

/-- CPU `c` takes interrupts: inside `scheduler` between critical sections, or
in a process that allows it. -/
def interruptible (s : Kernel n) (c : Fin n) : Bool :=
  match (s.cpus c).pc, (s.cpus c).proc with
  | .panicked _, _ => false
  | .swtched _, some p => (s.procs p).context.interruptible
  | .swtched _, none => false
  | _, _ => true

/-- The end of an action of process `p` on CPU `c`. -/
def finish (s : Kernel n) (c : Fin n) (p : ProcId) (t : Option ThreadId) : Effect n → Kernel n
  | .continues s' => s'
  | .calls s' x => s'.sched c p t x
  | .panics reason => s.panic c reason

end Kernel

/-- One step of the kernel: the scheduler of a CPU, a timer interrupt, a
`wakeup` by an interrupt handler or a system call that the model does not
detail, or an action of the process a CPU executes.  Only `exit` wakes the
channel of a process, and only the timer wakes `&ticks`. -/
inductive Action (n : Nat) where
  | scheduler (c : Fin n)
  | clockintr (c : Fin n)
  /-- The `ticks++` of a `clockintr` whose `wakeup` has to wait for the lock of a process that is
  giving up its CPU, after that many of the reads there. -/
  | tick (c : Fin n) (stale : Nat)
  | wakeup (c : Fin n) (chan : Chan)
  | proc (c : Fin n) (act : ProcAction)
deriving DecidableEq, Repr

def Action.isTimer {n : Nat} : Action n → Bool
  | .clockintr _ => true
  | .tick _ _ => true
  | _ => false

namespace Kernel

/-- `clockintr` on CPU 0. -/
def clockintr (s : Kernel n) (c : Fin n) : Kernel n :=
  { s with
    ticks := s.ticks + 1
    stale := 0
    procs := CustomXv6.wakeup (s.cpus c).proc (some .ticks) s.procs }

def step (s : Kernel n) : Action n → Option (Kernel n)
  | .scheduler c => s.schedulerStep c
  | .clockintr c => if c.val = 0 ∧ s.interruptible c then some (s.clockintr c) else none
  | .tick c stale =>
    if c.val = 0 ∧ s.interruptible c then some { s with ticks := s.ticks + 1, stale := stale }
    else none
  | .wakeup _ (.proc _) => none
  -- The rest of a `clockintr`.
  | .wakeup c .ticks =>
    if c.val = 0 ∧ s.interruptible c then
      some { s with stale := 0, procs := CustomXv6.wakeup (s.cpus c).proc (some .ticks) s.procs }
    else none
  | .wakeup c chan =>
    if s.interruptible c then
      some { s with procs := CustomXv6.wakeup (s.cpus c).proc (some chan) s.procs }
    else none
  | .proc c act =>
    match s.executing c with
    | none => none
    | some (p, t) => (s.procAction p act).map (s.finish c p t)

end Kernel

/-- The first process, as `userinit` leaves it. -/
def initcodeProc : Proc :=
  { state := .runnable
    pid := 1
    trapframe := some { (default : Trapframe) with epc := 0, sp := 4096 }
    context := .forkret
    usageTime := some CpuUsage.fresh }

/-- The kernel when its CPUs enter `scheduler`: `procinit` and `userinit` have
run. -/
def boot (n : Nat) : Kernel n :=
  { procs := fun p => if p = 0 then initcodeProc else {}
    pq := pqInit
    q := initializeQueue
    cpus := fun _ => { proc := none, pc := .scan 0 }
    ticks := 0
    stale := 0
    nextpid := 2
    initproc := 0 }

/-! ### Schedules -/

/-- One pass of the scheduler of CPU `c` that pushes, pops and dispatches the
only runnable process. -/
def pass (c : Fin n) : List (Action n) := List.replicate 66 (.scheduler c)

/-- The same, and the process traps into the kernel. -/
def traps (c : Fin n) : List (Action n) := pass c ++ [.proc c .usertrapret, .proc c .usertrap]

/-- One pass that finds nothing in the heap and dispatches from the quota
queue. -/
def parkedPass (c : Fin n) : List (Action n) := List.replicate 67 (.scheduler c)

/-- The first process, in the kernel on CPU `c`, calls `set_cpu_quota(1, 0)`. -/
def zeroQuota (c : Fin n) : List (Action n) :=
  .proc c (.setCpuQuota 1 0) :: List.replicate 4 (.proc c .quotaStep)

/-- The first process, in the kernel on CPU `c`, forks the process in slot 1. -/
def forkOne (c : Fin n) (deadline : Option UInt32) : List (Action n) :=
  [.proc c (.fork deadline), .proc c (.allocproc true), .proc c (.allocproc true),
    .proc c .forkParent, .proc c .forkRunnable]

/-- On two CPUs: the first process forks on CPU 0, and CPU 1 runs the child,
which exits. -/
def childExits (status : Int) : List (Action 2) :=
  traps 0 ++ forkOne 0 none ++ traps 1 ++ [.proc 1 (.exit status)]

end CustomXv6

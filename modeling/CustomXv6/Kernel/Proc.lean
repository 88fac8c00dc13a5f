/-
Module: CustomXv6.Kernel.Proc
Purpose: Data model of the process subsystem (kernel/proc.h, kernel/param.h).
Trusted boundary: human-reviewed spec
Main exports: Thread, Proc, freeproc
-/
import Mathlib.Algebra.Ring.Nat
import Mathlib.Data.Fin.Basic

namespace CustomXv6

/-- `NPROC`: maximum number of processes. -/
abbrev nproc : Nat := 64

/-- `MAX_THREAD`: maximum number of threads of a process. -/
abbrev maxThread : Nat := 4

/-- `NOFILE`: open files of a process. -/
abbrev nofile : Nat := 16

/-- `NFILE`: open files of the system. -/
abbrev nfile : Nat := 100

/-- `MAX_UINT`, the default quota and deadline.  It is below `2 ^ 32 - 1`. -/
def maxUint : UInt32 := 4000000000

/-- A slot of the process table `proc[NPROC]`, standing for `struct proc *`. -/
abbrev ProcId := Fin nproc

instance procSlots : NeZero nproc := ⟨by decide⟩

/-- The loops `for(p = proc; p < &proc[NPROC]; p++)`: the next entry, if the
loop goes on. -/
def nextSlot (p : ProcId) : Option ProcId :=
  if lt : p.val + 1 < nproc then some ⟨p.val + 1, lt⟩ else none

/-- A slot of `p->threads`, standing for `struct thread *`. -/
abbrev ThreadId := Fin maxThread

instance threadSlots : NeZero maxThread := ⟨by decide⟩

inductive ProcState where
  | unused
  | used
  | sleeping
  | runnable
  | running
  | zombie
  | passedQuota
  | chosenToRun
  | dropped
deriving DecidableEq, Repr, Inhabited

inductive ThreadState where
  | free
  | runnable
  | running
  | joined
deriving DecidableEq, Repr, Inhabited

/-- The user half of `struct trapframe`: what `uservec` saves and `userret`
restores. -/
structure UserRegs where
  epc : UInt64
  ra : UInt64
  sp : UInt64
  gp : UInt64
  tp : UInt64
  t0 : UInt64
  t1 : UInt64
  t2 : UInt64
  s0 : UInt64
  s1 : UInt64
  a0 : UInt64
  a1 : UInt64
  a2 : UInt64
  a3 : UInt64
  a4 : UInt64
  a5 : UInt64
  a6 : UInt64
  a7 : UInt64
  s2 : UInt64
  s3 : UInt64
  s4 : UInt64
  s5 : UInt64
  s6 : UInt64
  s7 : UInt64
  s8 : UInt64
  s9 : UInt64
  s10 : UInt64
  s11 : UInt64
  t3 : UInt64
  t4 : UInt64
  t5 : UInt64
  t6 : UInt64
deriving DecidableEq, Repr, Inhabited

/-- `struct trapframe`.  The `kernel*` fields are rewritten by `usertrapret`
and are not user registers. -/
structure Trapframe extends UserRegs where
  kernelSatp : UInt64
  kernelSp : UInt64
  kernelTrap : UInt64
  kernelHartid : UInt64
deriving DecidableEq, Repr, Inhabited

/-- `struct thread`.  A null `trapframe` pointer is `none`. -/
structure Thread where
  state : ThreadState := .free
  trapframe : Option Trapframe := none
  id : Int := 0
  join : Int := 0
deriving DecidableEq, Repr, Inhabited

/-- `struct cpu_usage`.  All fields are `uint` and wrap around. -/
structure CpuUsage where
  sumOfTicks : UInt32
  startTick : UInt32
  quota : UInt32
  lastSchedTick : UInt32
  deadline : UInt32
deriving DecidableEq, Repr, Inhabited

namespace CpuUsage

/-- What `allocproc` writes into a fresh `usage_time` page. -/
def fresh : CpuUsage :=
  { sumOfTicks := 0, startTick := 0, quota := maxUint, lastSchedTick := 0, deadline := maxUint }

/-- Accounting of the scheduler just before `swtch`. -/
def startRun (ticks : UInt32) (usage : CpuUsage) : CpuUsage :=
  { usage with
    startTick := if usage.startTick = 0 then ticks else usage.startTick
    lastSchedTick := ticks }

/-- Accounting of the scheduler just after `swtch`: `last_sched_tick` stays. -/
def addRun (ticks : UInt32) (usage : CpuUsage) : CpuUsage :=
  { usage with sumOfTicks := usage.sumOfTicks + (ticks - usage.lastSchedTick) }

/-- Accounting of `sched` and of the entry of `usertrap`. -/
def charge (ticks : UInt32) (usage : CpuUsage) : CpuUsage :=
  { usage.addRun ticks with lastSchedTick := ticks }

end CpuUsage

/-- Sleep channels.  The code uses kernel addresses; only their identity
matters. -/
inductive Chan where
  | proc (p : ProcId)
  | ticks
  | log
  | sleeplock (index : Nat)
  | other (addr : UInt64)
deriving DecidableEq, Repr, Inhabited

/-- Where a process is in its own code between two critical sections.  This
stands for `p->context` and the kernel stack below it, of which a process has
one, however many threads it has.  A `deadline` of `none` means `fork`, of
`some d` means `fork_deadline(d)`. -/
inductive Cont where
  | user
  /-- Inside a system call, or in `usertrap` before its last `killed` test. -/
  | kernel
  /-- In `usertrap` after its last `killed` test. -/
  | returning
  /-- At the start of `forkret`. -/
  | forkret
  /-- `usertrap` has stored `DROPPED` and calls `yield` next. -/
  | trapYield
  /-- `join_thread` or `exit_t` has updated the thread table and calls `yield`
  next. -/
  | threadYield
  | allocproc (deadline : Option UInt32) (index : ProcId)
  | forkParent (deadline : Option UInt32) (np : ProcId)
  | forkRunnable (deadline : Option UInt32) (np : ProcId)
  /-- Woken from the `sleep` of `wait`, about to search for a child again. -/
  | waitLoop
  | killLoop (pid : Int) (index : ProcId)
  /-- The four accesses of `set_cpu_quota` to an entry of the table. -/
  | quotaState (pid : Int) (quota : UInt32) (index : ProcId)
  | quotaPid (pid : Int) (quota : UInt32) (target : ProcId)
  | quotaCheck (pid : Int) (quota : UInt32) (target : ProcId)
  | quotaStore (quota : UInt32) (target : ProcId)
deriving DecidableEq, Repr, Inhabited

/-- `struct proc`, without the fields that only the memory and file systems
use (`kstack`, `sz`, `pagetable`, `ofile`, `cwd`, `name`). -/
structure Proc where
  state : ProcState := .unused
  chan : Option Chan := none
  killed : Bool := false
  xstate : Int := 0
  pid : Int := 0
  parent : Option ProcId := none
  trapframe : Option Trapframe := none
  context : Cont := .kernel
  threads : ThreadId → Thread := fun _ => {}
  currentThread : Option ThreadId := none
  usageTime : Option CpuUsage := none
deriving Inhabited

/-- Update one slot of `p->threads`. -/
def Proc.setThread (p : Proc) (t : ThreadId) (thread : Thread) : Proc :=
  { p with threads := Function.update p.threads t thread }

def freethread (_ : Thread) : Thread :=
  { trapframe := none, state := .free, id := 0, join := 0 }

/-- `freeproc`.  The saved context is left as it is, as in the source. -/
def freeproc (p : Proc) : Proc :=
  { p with
    trapframe := none
    usageTime := none
    pid := 0
    parent := none
    chan := none
    killed := false
    xstate := 0
    state := .unused
    currentThread := none
    threads := fun t => freethread (p.threads t) }

end CustomXv6

/-
Module: CustomXv6.Kernel.Steps
Purpose: What one action of a process can do to the kernel, grouped by effect.
Trusted boundary: none
Main exports: ProcStep, procAction_cases, step_cases
-/
import CustomXv6.Kernel.System

namespace CustomXv6

variable {n : Nat} {x y z : Proc} {tid : Int}

/-- The process that a `fork` in progress is setting up. -/
def Cont.forking : Cont → Option ProcId
  | .forkParent _ np => some np
  | .forkRunnable _ np => some np
  | _ => none

/-- The process is neither inside a `fork` nor between the deadline test of
`usertrap` and its `yield`. -/
def Cont.plain : Cont → Bool
  | .forkParent _ _ => false
  | .forkRunnable _ _ => false
  | .trapYield => false
  | _ => true

variable {cont : Cont} {effect : Effect n} {src : Source}

theorem Cont.forking_of_plain (plain : cont.plain) : cont.forking = none := by
  cases cont with
  | forkParent => cases plain
  | forkRunnable => cases plain
  | _ => rfl

/-- What a process may change about itself while it goes on executing. -/
structure Proc.OwnChange (x y : Proc) : Prop where
  state : y.state = x.state
  pre : x.context.plain
  after : y.context.plain
  limits : y.usageTime.map (fun usage => (usage.quota, usage.deadline)) =
    x.usageTime.map fun usage => (usage.quota, usage.deadline)
  pid : y.pid = x.pid
  parent : y.parent = x.parent

/-- A thread call changes nothing of a process but its threads. -/
structure Proc.SameCall (x y : Proc) : Prop where
  state : y.state = x.state
  chan : y.chan = x.chan
  killed : y.killed = x.killed
  xstate : y.xstate = x.xstate
  pid : y.pid = x.pid
  parent : y.parent = x.parent
  trapframe : y.trapframe = x.trapframe
  context : y.context = x.context
  usageTime : y.usageTime = x.usageTime

/-- What `fork` and `fork_deadline` store last into the new process. -/
def Proc.Readied (deadline : Option UInt32) (x y : Proc) : Prop :=
  match deadline with
  | none => y = { x with state := .runnable }
  | some deadline =>
    ∃ usage, x.usageTime = some usage ∧
      y =
        { x with
          state := .runnable
          usageTime := some { usage with deadline := deadline } }

/-- `create_thread`, `join_thread` and `exit_thread`. -/
def ProcAction.threadCall : ProcAction → Bool
  | .createThread _ _ _ _ _ => true
  | .joinThread _ => true
  | .exitThread _ => true
  | _ => false

/-- `sleep`, also where `wait` calls it. -/
def ProcAction.sleepCall : ProcAction → Bool
  | .sleep _ => true
  | .wait _ => true
  | _ => false

/-- The action makes the process call `sched` and stay alive: `yield`, `sleep`,
or a `wait` that finds children but none that has exited. -/
def Kernel.givesUp (s : Kernel n) (p : ProcId) : ProcAction → Bool
  | .yield => true
  | .preempt => true
  | .sleep _ => true
  | .wait _ =>
    (firstZombie s.procs p).isNone && hasChild s.procs p && !(s.procs p).killed
  | _ => false

/-- Why an action of process `p` panics. -/
inductive PanicCause (s : Kernel n) (p : ProcId) : ProcAction → Prop where
  | usage {act : ProcAction} (missing : (s.procs p).usageTime = none) : PanicCause s p act
  | initExiting (status : Int) (isInit : p = s.initproc) : PanicCause s p (.exit status)
  | frame {act : ProcAction} (missing : (s.procs p).trapframe = none) : PanicCause s p act
  | child {act : ProcAction} (np : ProcId) (forking : (s.procs p).context.forking = some np)
      (missing : (s.procs np).usageTime = none) : PanicCause s p act
  | quotaTarget (quota : UInt32) (target : ProcId)
      (storing : (s.procs p).context = .quotaStore quota target)
      (missing : (s.procs target).usageTime = none) : PanicCause s p .quotaStep
  | thread {act : ProcAction} (call : act.threadCall) : PanicCause s p act

/-- The moves of a process from one point of its code to another that change
nothing else. -/
inductive ContMove (s : Kernel n) (p : ProcId) : ProcAction → Cont → Prop where
  | killedCheck (atKernel : (s.procs p).context = .kernel) (alive : (s.procs p).killed = false) :
      ContMove s p .killedCheck .returning
  | firstReturn (atForkret : (s.procs p).context = .forkret) : ContMove s p .usertrapret .user
  | fork (deadline : Option UInt32) (atKernel : (s.procs p).context = .kernel) :
      ContMove s p (.fork deadline) (.allocproc deadline 0)
  | allocNext (success : Bool) (deadline : Option UInt32) (index index' : ProcId)
      (searching : (s.procs p).context = .allocproc deadline index)
      (busy : (s.procs index).state ≠ .unused) (next : nextSlot index = some index') :
      ContMove s p (.allocproc success) (.allocproc deadline index')
  | allocEnd (success : Bool) (deadline : Option UInt32) (index : ProcId)
      (searching : (s.procs p).context = .allocproc deadline index)
      (busy : (s.procs index).state ≠ .unused) (last : nextSlot index = none) :
      ContMove s p (.allocproc success) .kernel
  | copyFailed (pp : ProcId) (found : firstZombie s.procs p = some pp)
      (waiting : (s.procs p).context = .kernel ∨ (s.procs p).context = .waitLoop) :
      ContMove s p (.wait false) .kernel
  | noWait (copyout : Bool) (noZombie : firstZombie s.procs p = none)
      (pointless : hasChild s.procs p = false ∨ (s.procs p).killed)
      (waiting : (s.procs p).context = .kernel ∨ (s.procs p).context = .waitLoop) :
      ContMove s p (.wait copyout) .kernel
  | kill (pid : Int) (atKernel : (s.procs p).context = .kernel) :
      ContMove s p (.kill pid) (.killLoop pid 0)
  | killNext (pid : Int) (index index' : ProcId)
      (killing : (s.procs p).context = .killLoop pid index)
      (missed : (s.procs index).pid ≠ pid) (next : nextSlot index = some index') :
      ContMove s p .killStep (.killLoop pid index')
  | killEnd (pid : Int) (index : ProcId) (killing : (s.procs p).context = .killLoop pid index)
      (missed : (s.procs index).pid ≠ pid) (last : nextSlot index = none) :
      ContMove s p .killStep .kernel
  | quota (pid : Int) (quota : UInt32) (atKernel : (s.procs p).context = .kernel) :
      ContMove s p (.setCpuQuota pid quota) (.quotaState pid quota 0)
  | quotaUsed (pid : Int) (quota : UInt32) (index : ProcId)
      (reading : (s.procs p).context = .quotaState pid quota index)
      (used : (s.procs index).state ≠ .unused) :
      ContMove s p .quotaStep (.quotaPid pid quota index)
  | quotaNext (pid : Int) (quota : UInt32) (index index' : ProcId)
      (reading : (s.procs p).context = .quotaState pid quota index ∨
        (s.procs p).context = .quotaPid pid quota index)
      (next : nextSlot index = some index') :
      ContMove s p .quotaStep (.quotaState pid quota index')
  | quotaEnd (pid : Int) (quota : UInt32) (index : ProcId)
      (reading : (s.procs p).context = .quotaState pid quota index ∨
        (s.procs p).context = .quotaPid pid quota index)
      (last : nextSlot index = none) : ContMove s p .quotaStep .kernel
  | quotaFound (pid : Int) (quota : UInt32) (target : ProcId)
      (reading : (s.procs p).context = .quotaPid pid quota target)
      (hit : (s.procs target).pid = pid) :
      ContMove s p .quotaStep (.quotaCheck pid quota target)
  | quotaPassed (pid : Int) (quota : UInt32) (target : ProcId)
      (checking : (s.procs p).context = .quotaCheck pid quota target)
      (hit : (s.procs target).pid = pid) :
      ContMove s p .quotaStep (.quotaStore quota target)
  | quotaLost (pid : Int) (quota : UInt32) (target : ProcId)
      (checking : (s.procs p).context = .quotaCheck pid quota target)
      (missed : (s.procs target).pid ≠ pid) : ContMove s p .quotaStep .kernel

/-- The record that a thread call leaves. -/
def ThreadCall.record : ThreadCall → Option Proc
  | .fault => none
  | .failed x => some x
  | .yields x => some x

/-- The record that a thread call of a process with record `x` leaves, before it
yields. -/
def ProcAction.ThreadResult (x : Proc) : ProcAction → Proc → Prop
  | .createThread startRoutine arg pstack kalloc1 kalloc2, y =>
    ∃ tid, x.createThread startRoutine arg pstack kalloc1 kalloc2 = some (tid, y)
  | .joinThread tid, y => (x.joinThread tid).record = some y
  | .exitThread tid, y => (x.exitThread tid).record = some y
  | _, _ => False

/-- The changes of a process to its own record only. -/
inductive OwnMove (s : Kernel n) (p : ProcId) : ProcAction → Proc → Prop where
  | usertrap (usage : CpuUsage) (atUser : (s.procs p).context = .user)
      (has : (s.procs p).usageTime = some usage) (inTime : ¬ usage.deadline ≤ s.ticks) :
      OwnMove s p .usertrap
        { s.procs p with usageTime := some (usage.charge s.ticks), context := .kernel }
  | usertrapret (usage : CpuUsage) (atReturn : (s.procs p).context = .returning)
      (has : (s.procs p).usageTime = some usage) :
      OwnMove s p .usertrapret
        { s.procs p with
          usageTime := some { usage with lastSchedTick := s.ticks }
          context := .user }
  | setkilled (atKernel : (s.procs p).context = .kernel) :
      OwnMove s p .setkilled { s.procs p with killed := true }
  | threadReturns {act : ProcAction} (x : Proc) (call : act.threadCall)
      (atKernel : (s.procs p).context = .kernel) (same : (s.procs p).SameCall x)
      (res : act.ThreadResult (s.procs p) x) :
      OwnMove s p act x
  | threadYields {act : ProcAction} (x : Proc) (call : act.threadCall)
      (atKernel : (s.procs p).context = .kernel) (same : (s.procs p).SameCall x)
      (res : act.ThreadResult (s.procs p) x) :
      OwnMove s p act { x with context := .threadYield }

/-- The two ways to call `sleep`: on some channel that belongs to no process,
or in `wait`, on the channel of the process itself. -/
inductive SleepMove (s : Kernel n) (p : ProcId) : ProcAction → Chan → Cont → Prop where
  | call (chan : Chan) (noProc : ∀ q, chan ≠ .proc q)
      (atKernel : (s.procs p).context = .kernel ∨ (s.procs p).context = .forkret) :
      SleepMove s p (.sleep chan) chan (s.procs p).context
  | wait (copyout : Bool) (noZombie : firstZombie s.procs p = none)
      (child : hasChild s.procs p = true) (alive : (s.procs p).killed = false)
      (waiting : (s.procs p).context = .kernel ∨ (s.procs p).context = .waitLoop) :
      SleepMove s p (.wait copyout) (.proc p) .waitLoop

/-- Where a process goes on after a `yield`: where it was, or after the call of
`yield` it stood before. -/
def Cont.Resumes (pre after : Cont) : Prop :=
  after = pre ∨ ((pre = .trapYield ∨ pre = .threadYield) ∧ after = .kernel)

/-- The effects an action of process `p` can have.  Only the last four rules
give up the CPU or stop it; of the others only the one for an expired deadline
changes the state of `p` itself. -/
inductive ProcStep (s : Kernel n) (p : ProcId) : ProcAction → Effect n → Prop where
  | moves {act : ProcAction} (cont : Cont)
      (pre : (s.procs p).context.plain) (after : cont.plain) (move : ContMove s p act cont) :
      ProcStep s p act (.continues (s.setCont p cont))
  | own {act : ProcAction} (x : Proc) (change : (s.procs p).OwnChange x)
      (threads : act.threadCall = false → x.currentThread = (s.procs p).currentThread)
      (move : OwnMove s p act x) :
      ProcStep s p act (.continues (s.setProc p x))
  | expired (usage : CpuUsage) (atUser : (s.procs p).context = .user)
      (has : (s.procs p).usageTime = some usage) (late : usage.deadline ≤ s.ticks) :
      ProcStep s p .usertrap (.continues (s.setProc p
        { s.procs p with
          usageTime := some (usage.charge s.ticks)
          state := .dropped
          context := .trapYield }))
  | taken (deadline : Option UInt32) (index : ProcId) (frame : Trapframe)
      (searching : (s.procs p).context = .allocproc deadline index)
      (free : (s.procs index).state = .unused) (framed : (s.procs p).trapframe = some frame)
      (below : s.nextpid < Kernel.maxInt) :
      ProcStep s p (.allocproc true) (.continues
        (({ s with nextpid := s.nextpid + 1 }.setProc index
          (newProc s.nextpid frame (s.procs index))).setCont p (.forkParent deadline index)))
  | refused (deadline : Option UInt32) (index : ProcId)
      (searching : (s.procs p).context = .allocproc deadline index)
      (free : (s.procs index).state = .unused) (below : s.nextpid < Kernel.maxInt) :
      ProcStep s p (.allocproc false) (.continues
        (({ s with nextpid := s.nextpid + 1 }.setProc index
          (freeproc (s.procs index))).setCont p .kernel))
  | forkParent (deadline : Option UInt32) (np : ProcId)
      (forking : (s.procs p).context = .forkParent deadline np) :
      ProcStep s p .forkParent (.continues
        ((s.setProc np { s.procs np with parent := some p }).setCont p (.forkRunnable deadline np)))
  | forkRunnable (deadline : Option UInt32) (np : ProcId) (y : Proc)
      (forking : (s.procs p).context = .forkRunnable deadline np)
      (readied : (s.procs np).Readied deadline y) :
      ProcStep s p .forkRunnable (.continues ((s.setProc np y).setCont p .kernel))
  | reaps (pp : ProcId) (found : firstZombie s.procs p = some pp)
      (waiting : (s.procs p).context = .kernel ∨ (s.procs p).context = .waitLoop) :
      ProcStep s p (.wait true) (.continues
        ((s.setProc pp (freeproc (s.procs pp))).setCont p .kernel))
  | kills (pid : Int) (index : ProcId) (killing : (s.procs p).context = .killLoop pid index)
      (hit : (s.procs index).pid = pid) :
      ProcStep s p .killStep (.continues
        ((s.setProc index (killProc (s.procs index))).setCont p .kernel))
  | storesQuota (quota : UInt32) (target : ProcId) (usage : CpuUsage)
      (storing : (s.procs p).context = .quotaStore quota target)
      (has : (s.procs target).usageTime = some usage) :
      ProcStep s p .quotaStep (.continues
        ((s.setProc target
          { s.procs target with usageTime := some { usage with quota := quota } }).setCont p
            .kernel))
  | yields {act : ProcAction} (cont : Cont) (gives : s.givesUp p act)
      (same : cont.forking = (s.procs p).context.forking) (after : cont ≠ .trapYield)
      (resumes : (s.procs p).context.Resumes cont) (inKernel : cont ≠ .user) :
      ProcStep s p act (s.yield p cont)
  | sleeps {act : ProcAction} (chan : Chan) (cont : Cont) (gives : s.givesUp p act)
      (sleeps : act.sleepCall) (pre : (s.procs p).context.plain) (after : cont.plain)
      (move : SleepMove s p act chan cont) :
      ProcStep s p act (s.sleep p chan cont)
  | exits (status : Int) (atKernel : (s.procs p).context = .kernel) (notInit : p ≠ s.initproc) :
      ProcStep s p (.exit status) (s.exit p status)
  | panics {act : ProcAction} (reason : Panic) (noOverflow : reason ≠ .pqOverflow)
      (cause : PanicCause s p act) : ProcStep s p act (.panics reason)

/-! ### The thread loop -/

/-- The thread loop changes nothing of a process but its threads and its
trapframe. -/
structure Proc.SameCore (x y : Proc) : Prop where
  state : y.state = x.state
  chan : y.chan = x.chan
  killed : y.killed = x.killed
  pid : y.pid = x.pid
  parent : y.parent = x.parent
  context : y.context = x.context
  usageTime : y.usageTime = x.usageTime

namespace Proc.SameCore

variable {t : ThreadId} {stop : Option ThreadId}

theorem refl (x : Proc) : x.SameCore x := ⟨rfl, rfl, rfl, rfl, rfl, rfl, rfl⟩

theorem trans (first : x.SameCore y) (second : y.SameCore z) : x.SameCore z :=
  ⟨second.state.trans first.state, second.chan.trans first.chan, second.killed.trans first.killed,
    second.pid.trans first.pid, second.parent.trans first.parent,
    second.context.trans first.context, second.usageTime.trans first.usageTime⟩

theorem saveTo (saved : x.saveTo t = some y) : x.SameCore y := by
  rw [Proc.saveTo] at saved
  split at saved
  · cases saved
    exact ⟨rfl, rfl, rfl, rfl, rfl, rfl, rfl⟩
  · cases saved

theorem saveCurrent (saved : x.saveCurrent = some y) : x.SameCore y := by
  rw [Proc.saveCurrent] at saved
  split at saved
  · cases saved
    exact refl x
  split at saved
  · cases saved
    exact refl x
  · exact saveTo saved

theorem leaveThread (left : x.leaveThread t = some y) : x.SameCore y := by
  have relabelled : x.SameCore (x.setThread t { x.threads t with state := .runnable }) :=
    ⟨rfl, rfl, rfl, rfl, rfl, rfl, rfl⟩
  rw [Proc.leaveThread] at left
  split at left
  · split at left
    · cases left
      exact relabelled
    · exact relabelled.trans (saveTo left)
  · split at left
    · cases left
      exact refl x
    · exact saveTo left

theorem threadLoop {start : Nat} (looped : x.threadLoop start = some (y, stop)) : x.SameCore y := by
  rw [Proc.threadLoop] at looped
  split at looped
  · cases looped
    exact refl x
  obtain ⟨_, loadedEq, pairEq⟩ := Option.map_eq_some_iff.mp looped
  cases pairEq
  rw [Proc.loadThread] at loadedEq
  split at loadedEq
  · cases loadedEq
    exact ⟨rfl, rfl, rfl, rfl, rfl, rfl, rfl⟩
  · cases loadedEq

theorem enterThreads (entered : x.enterThreads = some (y, stop)) : x.SameCore y := by
  obtain ⟨_, savedEq, looped⟩ := Option.bind_eq_some_iff.mp entered
  exact (saveCurrent savedEq).trans (threadLoop looped)

theorem afterSwtch (left : x.afterSwtch t = some (y, stop)) : x.SameCore y := by
  obtain ⟨_, savedEq, looped⟩ := Option.bind_eq_some_iff.mp left
  exact (leaveThread savedEq).trans (threadLoop looped)

end Proc.SameCore

/-! ### The thread calls -/

namespace Proc.SameCall

variable {arg pstack startRoutine : UInt64}

theorem refl (x : Proc) : x.SameCall x := ⟨rfl, rfl, rfl, rfl, rfl, rfl, rfl, rfl, rfl⟩

theorem trans (first : x.SameCall y) (second : y.SameCall z) : x.SameCall z :=
  ⟨second.state.trans first.state, second.chan.trans first.chan, second.killed.trans first.killed,
    second.xstate.trans first.xstate, second.pid.trans first.pid,
    second.parent.trans first.parent, second.trapframe.trans first.trapframe,
    second.context.trans first.context, second.usageTime.trans first.usageTime⟩

/-- What the other modules use of a thread call, wherever the process goes on. -/
theorem own (same : x.SameCall y) (pre : x.context.plain) (after : cont.plain) :
    x.OwnChange { y with context := cont } :=
  ⟨same.state, pre, after, by rw [same.usageTime], same.pid, same.parent⟩

theorem setThread (x : Proc) (t : ThreadId) (thread : Thread) :
    x.SameCall (x.setThread t thread) := ⟨rfl, rfl, rfl, rfl, rfl, rfl, rfl, rfl, rfl⟩

theorem newThread {t : ThreadId} (new : x.newThread t startRoutine arg pstack = some y) :
    x.SameCall y := by
  obtain ⟨_, _, rfl⟩ := Option.map_eq_some_iff.mp new
  exact setThread x t _

theorem createSecond {kalloc flag : Bool}
    (new : x.createSecond startRoutine arg pstack kalloc flag = some (tid, y)) :
    x.SameCall y := by
  rw [Proc.createSecond] at new
  split at new
  · cases new
    exact refl x
  rename_i t _
  split at new
  · obtain ⟨_, stored, pairEq⟩ := Option.map_eq_some_iff.mp new
    cases pairEq
    exact newThread stored
  have cleared := setThread x t { x.threads t with trapframe := none }
  simp only at new
  split at new
  · cases new
    exact cleared.trans (setThread _ _ _)
  · cases new
    exact cleared

theorem createThread {kalloc1 kalloc2 : Bool}
    (new : x.createThread startRoutine arg pstack kalloc1 kalloc2 = some (tid, y)) :
    x.SameCall y := by
  rw [Proc.createThread] at new
  split at new
  · split at new
    · obtain ⟨_, made, second⟩ := Option.bind_eq_some_iff.mp new
      obtain ⟨_, _, rfl⟩ := Option.map_eq_some_iff.mp made
      refine trans ?_ (createSecond second)
      exact ⟨rfl, rfl, rfl, rfl, rfl, rfl, rfl, rfl, rfl⟩
    · cases new
      exact setThread _ _ _
  · exact createSecond new

theorem joinThread (called : (x.joinThread tid).record = some y) : x.SameCall y := by
  rw [Proc.joinThread] at called
  split at called
  · cases called
    exact refl x
  split at called
  · cases called
  · cases called
    exact setThread _ _ _

theorem exitT (called : (x.exitT tid).record = some y) : x.SameCall y := by
  have woken : x.SameCall (x.wakeJoiners tid) := ⟨rfl, rfl, rfl, rfl, rfl, rfl, rfl, rfl, rfl⟩
  simp only [Proc.exitT] at called
  split at called
  · cases called
    exact woken
  split at called
  · cases called
    exact woken
  · cases called
    exact woken.trans (setThread _ _ _)

theorem exitThread (called : (x.exitThread tid).record = some y) : x.SameCall y := by
  rw [Proc.exitThread] at called
  split at called
  · split at called
    · cases called
    · exact exitT called
  · exact exitT called

end Proc.SameCall

variable {s s' : Kernel n} {c : Fin n} {p : ProcId} {act : ProcAction}

theorem threadCall_procStep {call : ThreadCall} (thread : act.threadCall)
    (atKernel : (s.procs p).context = .kernel)
    (same : ∀ y, call.record = some y → (s.procs p).SameCall y)
    (res : ∀ y, call.record = some y → act.ThreadResult (s.procs p) y) :
    ProcStep s p act (s.threadCall p call) := by
  have plain : (s.procs p).context.plain := by rw [atKernel]; rfl
  cases call with
  | fault => exact .panics _ (by simp) (.thread thread)
  | failed x =>
    have pre := same x rfl
    exact .own x (pre.own plain (by rw [pre.context]; exact plain))
      (fun other => by simp [thread] at other)
      (.threadReturns x thread atKernel pre (res x rfl))
  | yields x =>
    have pre := same x rfl
    exact .own _ (pre.own plain rfl) (fun other => by simp [thread] at other)
      (.threadYields x thread atKernel pre (res x rfl))

/-! ### Inversion -/

/-- One round of a loop over the process table that goes on: to the next
entry, or to the end of the loop. -/
theorem loopOr_procStep {index : ProcId} {again : ProcId → Cont}
    (pre : (s.procs p).context.plain) (after : ∀ index', (again index').plain)
    (next : ∀ index', nextSlot index = some index' → ContMove s p act (again index'))
    (last : nextSlot index = none → ContMove s p act .kernel) :
    ProcStep s p act (.continues (s.loopOr p index again)) := by
  rw [Kernel.loopOr]
  split
  · rename_i index' nextEq
    exact .moves _ pre (after _) (next index' nextEq)
  · rename_i lastEq
    exact .moves _ pre rfl (last lastEq)

theorem quotaStep_cases (acted : s.quotaStep p = some effect) : ProcStep s p .quotaStep effect := by
  rw [Kernel.quotaStep] at acted
  split at acted
  · rename_i pid quota index ctx
    have plain : (s.procs p).context.plain := by rw [ctx]; rfl
    split at acted
    · cases acted
      exact loopOr_procStep plain (fun _ => rfl) (fun _ => .quotaNext pid quota index _ (.inl ctx))
        (.quotaEnd pid quota index (.inl ctx))
    · rename_i used
      cases acted
      exact .moves _ plain rfl (.quotaUsed pid quota index ctx used)
  · rename_i pid quota target ctx
    have plain : (s.procs p).context.plain := by rw [ctx]; rfl
    split at acted
    · rename_i hit
      cases acted
      exact .moves _ plain rfl (.quotaFound pid quota target ctx hit)
    cases acted
    exact loopOr_procStep plain (fun _ => rfl)
      (fun _ => .quotaNext pid quota target _ (.inr ctx))
      (.quotaEnd pid quota target (.inr ctx))
  · rename_i pid quota target ctx
    have plain : (s.procs p).context.plain := by rw [ctx]; rfl
    split at acted
    · rename_i hit
      cases acted
      exact .moves _ plain rfl (.quotaPassed pid quota target ctx hit)
    · rename_i missed
      cases acted
      exact .moves _ plain rfl (.quotaLost pid quota target ctx missed)
  · rename_i quota target ctx
    cases acted
    rw [Kernel.quotaStore]
    split
    · rename_i missing
      exact .panics _ (by simp) (.quotaTarget quota target ctx missing)
    · rename_i usage has
      exact .storesQuota quota target usage ctx has
  · cases acted

theorem wait_cases {copyout : Bool}
    (waiting : (s.procs p).context = .kernel ∨ (s.procs p).context = .waitLoop) :
    ProcStep s p (.wait copyout) (s.wait p copyout) := by
  have plain : (s.procs p).context.plain := by
    rcases waiting with ctx | ctx <;> rw [ctx] <;> rfl
  rw [Kernel.wait]
  split
  · rename_i pp found
    cases copyout with
    | true => exact .reaps pp found waiting
    | false => exact .moves _ plain rfl (.copyFailed pp found waiting)
  rename_i noZombie
  split
  · rename_i pointless
    exact .moves _ plain rfl (.noWait copyout noZombie pointless waiting)
  rename_i sleeps
  simp only [not_or, Bool.not_eq_true, Bool.not_eq_false] at sleeps
  refine .sleeps _ _ ?_ rfl plain rfl (.wait copyout noZombie sleeps.1 sleeps.2 waiting)
  simp [Kernel.givesUp, noZombie, sleeps.1, sleeps.2]

theorem plainAt {cont : Cont} (ctx : (s.procs p).context = cont) (plain : cont.plain) :
    (s.procs p).context.plain :=
  ctx ▸ plain

theorem usertrap_cases (ctx : (s.procs p).context = .user) :
    ProcStep s p .usertrap (s.usertrap p) := by
  rw [Kernel.usertrap]
  split
  · rename_i missing
    exact .panics _ (by simp) (.usage missing)
  rename_i usage has
  split
  · rename_i late
    exact .expired usage ctx has late
  rename_i inTime
  refine .own _ ⟨rfl, plainAt ctx rfl, rfl, ?_, rfl, rfl⟩ (fun _ => rfl)
    (.usertrap usage ctx has inTime)
  rw [has]
  rfl

theorem usertrapret_cases (ctx : (s.procs p).context = .returning) :
    ProcStep s p .usertrapret (s.usertrapret p) := by
  rw [Kernel.usertrapret]
  split
  · rename_i missing
    exact .panics _ (by simp) (.usage missing)
  rename_i usage has
  refine .own _ ⟨rfl, plainAt ctx rfl, rfl, ?_, rfl, rfl⟩ (fun _ => rfl)
    (.usertrapret usage ctx has)
  rw [has]
  rfl

theorem preempt_cases (interruptible : (s.procs p).context.interruptible) :
    ProcStep s p .preempt (s.yield p (s.procs p).context) := by
  refine .yields _ rfl rfl (fun trap => ?_) (.inl rfl) fun atUser => ?_
  · rw [trap] at interruptible
    cases interruptible
  · rw [atUser] at interruptible
    cases interruptible

theorem sleep_cases {chan : Chan} (noProc : ∀ q, chan ≠ .proc q)
    (calling : (s.procs p).context = .kernel ∨ (s.procs p).context = .forkret) :
    ProcStep s p (.sleep chan) (s.sleep p chan (s.procs p).context) := by
  have plain : (s.procs p).context.plain := by
    rcases calling with ctx | ctx <;> exact plainAt ctx rfl
  exact .sleeps _ _ rfl rfl plain plain (.call chan noProc calling)

theorem exit_cases (status : Int) (ctx : (s.procs p).context = .kernel) :
    ProcStep s p (.exit status) (s.exit p status) := by
  by_cases isInit : p = s.initproc
  · rw [Kernel.exit, if_pos isInit]
    exact .panics _ (by simp) (.initExiting status isInit)
  · exact .exits status ctx isInit

theorem allocproc_cases (success : Bool) {deadline : Option UInt32} {index : ProcId}
    (ctx : (s.procs p).context = .allocproc deadline index)
    (below : (s.procs index).state = .unused → s.nextpid < Kernel.maxInt) :
    ProcStep s p (.allocproc success) (s.allocproc p deadline index success) := by
  rw [Kernel.allocproc]
  split
  · rename_i free
    cases success with
    | true =>
      simp only [if_true]
      split
      · rename_i missing
        exact .panics _ (by simp) (.frame missing)
      · rename_i frame framed
        exact .taken deadline index frame ctx free framed (below free)
    | false => exact .refused deadline index ctx free (below free)
  · rename_i busy
    exact loopOr_procStep (plainAt ctx rfl) (fun _ => rfl)
      (fun _ => .allocNext success deadline index _ ctx busy)
      (.allocEnd success deadline index ctx busy)

theorem forkRunnable_cases {deadline : Option UInt32} {np : ProcId}
    (ctx : (s.procs p).context = .forkRunnable deadline np) :
    ProcStep s p .forkRunnable (s.forkRunnable p deadline np) := by
  cases deadline with
  | none => exact .forkRunnable none np _ ctx rfl
  | some deadline =>
    simp only [Kernel.forkRunnable]
    split
    · rename_i missing
      exact .panics _ (by simp) (.child np (by rw [ctx]; rfl) missing)
    · rename_i usage has
      exact .forkRunnable (some deadline) np _ ctx ⟨usage, has, rfl⟩

theorem killStep_cases {pid : Int} {index : ProcId}
    (ctx : (s.procs p).context = .killLoop pid index) :
    ProcStep s p .killStep (s.killStep p pid index) := by
  rw [Kernel.killStep]
  split
  · rename_i hit
    exact .kills pid index ctx hit
  rename_i missed
  exact loopOr_procStep (plainAt ctx rfl) (fun _ => rfl)
    (fun _ => .killNext pid index _ ctx missed) (.killEnd pid index ctx missed)

/-- Every action of a process has one of the listed effects. -/
theorem procAction_cases (acted : s.procAction p act = some effect) : ProcStep s p act effect := by
  unfold Kernel.procAction at acted
  split at acted
  · rename_i ctx
    cases acted
    exact usertrap_cases ctx
  · rename_i ctx
    split at acted
    · cases acted
    rename_i alive
    cases acted
    exact .moves _ (plainAt ctx rfl) rfl (.killedCheck ctx (by simpa using alive))
  · rename_i ctx
    cases acted
    exact usertrapret_cases ctx
  · rename_i ctx
    cases acted
    exact .moves _ (plainAt ctx rfl) rfl (.firstReturn ctx)
  · rename_i ctx
    cases acted
    have plain := plainAt ctx rfl
    exact .own _ ⟨rfl, plain, plain, rfl, rfl, rfl⟩ (fun _ => rfl) (.setkilled ctx)
  · rename_i ctx
    cases acted
    exact .yields _ rfl (by rw [ctx]; rfl) (by simp) (.inr ⟨.inl ctx, rfl⟩) (by simp)
  · rename_i ctx
    cases acted
    exact .yields _ rfl (by rw [ctx]; rfl) (by simp) (.inr ⟨.inr ctx, rfl⟩) (by simp)
  · rename_i ctx
    cases acted
    exact .yields _ rfl (by rw [ctx]) (by simp) (.inl ctx.symm) (by simp)
  · split at acted
    · rename_i interruptible
      cases acted
      exact preempt_cases interruptible
    · cases acted
  · cases acted
  · rename_i noProc ctx
    cases acted
    exact ctx ▸ sleep_cases noProc (.inl ctx)
  · rename_i noProc ctx
    cases acted
    exact ctx ▸ sleep_cases noProc (.inr ctx)
  · rename_i status ctx
    cases acted
    exact exit_cases status ctx
  · rename_i deadline ctx
    cases acted
    exact .moves _ (plainAt ctx rfl) rfl (.fork deadline ctx)
  · rename_i success deadline index ctx
    split at acted
    · cases acted
    rename_i few
    cases acted
    exact allocproc_cases success ctx fun free => Int.not_le.mp fun full =>
      few ⟨free, full⟩
  · rename_i deadline np ctx
    cases acted
    exact .forkParent deadline np ctx
  · rename_i deadline np ctx
    cases acted
    exact forkRunnable_cases ctx
  · rename_i ctx
    cases acted
    exact wait_cases (.inl ctx)
  · rename_i ctx
    cases acted
    exact wait_cases (.inr ctx)
  · rename_i pid ctx
    cases acted
    exact .moves _ (plainAt ctx rfl) rfl (.kill pid ctx)
  · rename_i ctx
    cases acted
    exact killStep_cases ctx
  · rename_i pid quota ctx
    cases acted
    exact .moves _ (plainAt ctx rfl) rfl (.quota pid quota ctx)
  · exact quotaStep_cases acted
  · rename_i ctx
    split at acted
    · cases acted
      exact .panics _ (by simp) (.thread rfl)
    rename_i x new
    cases acted
    have same := Proc.SameCall.createThread new
    have plain := plainAt ctx rfl
    exact .own _ (same.own plain (by rw [same.context]; exact plain)) nofun
      (.threadReturns x rfl ctx same ⟨_, new⟩)
  · rename_i ctx
    cases acted
    exact threadCall_procStep rfl ctx (fun y => .joinThread) fun _ => id
  · rename_i ctx
    cases acted
    exact threadCall_procStep rfl ctx (fun y => .exitThread) fun _ => id
  · cases acted

theorem exec_running {t : Option ThreadId} (runs : s.executing c = some (p, t)) :
    (s.cpus c).proc = some p ∧ (s.cpus c).pc = .swtched t := by
  rw [Kernel.executing] at runs
  split at runs
  · rename_i t' swtched
    obtain ⟨_, proc, pairEq⟩ := Option.map_eq_some_iff.mp runs
    cases pairEq
    exact ⟨proc, swtched⟩
  · cases runs

/-- A step of a process is one of its actions. -/
theorem proc_step_cases (ran : s.step (.proc c act) = some s') :
    ∃ p t effect, s.executing c = some (p, t) ∧ s.procAction p act = some effect ∧
      s' = s.finish c p t effect := by
  simp only [Kernel.step] at ran
  split at ran
  · cases ran
  rename_i p t runs
  obtain ⟨effect, acted, rfl⟩ := Option.map_eq_some_iff.mp ran
  exact ⟨p, t, effect, runs, acted, rfl⟩

theorem clockintr_step_cases (ran : s.step (.clockintr c) = some s') :
    s.interruptible c ∧ s' = s.clockintr c := by
  simp only [Kernel.step] at ran
  split at ran
  · rename_i enabled
    exact ⟨enabled.2, (Option.some.inj ran).symm⟩
  · cases ran

theorem tick_step_cases {stale : Nat} (ran : s.step (.tick c stale) = some s') :
    s' = { s with ticks := s.ticks + 1, stale := stale } := by
  simp only [Kernel.step] at ran
  split at ran
  · exact (Option.some.inj ran).symm
  · cases ran

theorem wakeup_step_cases {chan : Chan} (ran : s.step (.wakeup c chan) = some s') :
    s.interruptible c ∧ (∀ p, chan ≠ .proc p) ∧ ∃ stale,
      s' = { s with stale := stale, procs := wakeup (s.cpus c).proc (some chan) s.procs } := by
  cases chan with
  | proc => cases ran
  | ticks =>
    simp only [Kernel.step] at ran
    split at ran
    · rename_i enabled
      exact ⟨enabled.2, fun p => by simp, 0, (Option.some.inj ran).symm⟩
    · cases ran
  | _ =>
    simp only [Kernel.step] at ran
    split at ran
    · rename_i enabled
      exact ⟨enabled, fun p => by simp, s.stale, (Option.some.inj ran).symm⟩
    · cases ran

/-! ### The scheduler -/

/-- The CPU is in the part of `scheduler` in which it runs no process. -/
def SchedPc.inPass : SchedPc → Bool
  | .scan _ => true
  | .popPq => true
  | .popQ => true
  | .chosen _ _ => true
  | .swtched _ => false
  | .panicked _ => false

/-- The CPU refers to no process. -/
def SchedPc.handsFree : SchedPc → Bool
  | .chosen _ _ => false
  | .swtched _ => false
  | _ => true

/-- The effects a step of the scheduler of CPU `c` can have. -/
inductive SchedStep (s : Kernel n) (c : Fin n) : Kernel n → Prop where
  | moves (pc : SchedPc) (pre : (s.cpus c).pc.handsFree) (inPass : (s.cpus c).pc.inPass)
      (after : pc.handsFree) (emptied : pc = .popQ → s.pq.size = 0)
      (overflow : pc = .panicked .pqOverflow → nproc ≤ s.pq.size ∧ ∃ p, p ∉ s.pq.procs)
      (fault : ∀ reason, pc = .panicked reason → reason ≠ .pqOverflow → ∃ p,
        (p ∈ s.pq.procs ∨ (s.procs p).state = .runnable) ∧ (s.procs p).usageTime = none) :
      SchedStep s c (s.setPc c pc)
  | pushes (p : ProcId) (pq : PriorityQueue) (pc : SchedPc) (scanning : (s.cpus c).pc = .scan p)
      (runnable : (s.procs p).state = .runnable) (absent : p ∉ s.pq.procs)
      (contents : pq.procs = p ::ₘ s.pq.procs)
      (after : (∃ p', pc = .scan p') ∨ pc = .popPq) :
      SchedStep s c ({ s with pq := pq }.setPc c pc)
  | drops (p : ProcId) (pq : PriorityQueue) (usage : CpuUsage)
      (popping : (s.cpus c).pc = .popPq) (contents : s.pq.procs = p ::ₘ pq.procs)
      (has : (s.procs p).usageTime = some usage) (late : usage.deadline ≤ s.ticks) :
      SchedStep s c ({ s with pq := pq }.setProc p { s.procs p with state := .dropped })
  | chooses (p : ProcId) (pq : PriorityQueue) (usage : CpuUsage)
      (popping : (s.cpus c).pc = .popPq) (contents : s.pq.procs = p ::ₘ pq.procs)
      (has : (s.procs p).usageTime = some usage) (early : ¬ usage.deadline ≤ s.ticks) :
      SchedStep s c (({ s with pq := pq }.setProc p
        { s.procs p with state := .chosenToRun }).setPc c (.chosen p .pq))
  | unparks (p : ProcId) (q : Queue) (popping : (s.cpus c).pc = .popQ)
      (popped : pop s.q = (some p, q)) :
      SchedStep s c ({ s with q := q }.setPc c (.chosen p .q))
  | enters (p : ProcId) (src : Source) (t : Option ThreadId) (x : Proc) (usage : CpuUsage)
      (choosing : (s.cpus c).pc = .chosen p src)
      (same : ({ s.procs p with state := .running } : Proc).SameCore x)
      (has : (s.procs p).usageTime = some usage)
      (single : (s.procs p).currentThread = none →
        t = none ∧ x = { s.procs p with state := .running })
      (entered : (s.procs p).currentThread ≠ none → t ≠ none ∧
        ({ s.procs p with state := .running } : Proc).enterThreads = some (x, t)) :
      SchedStep s c ((s.setProc p
        { x with usageTime := some (usage.startRun s.ticks), chan := none }).setCpu c
          { proc := some p, pc := .swtched t })
  | rests (p : ProcId) (src : Source) (x : Proc) (choosing : (s.cpus c).pc = .chosen p src)
      (same : ({ s.procs p with state := .running } : Proc).SameCore x)
      (threaded : (s.procs p).currentThread ≠ none)
      (stuck : ∀ t, ((s.procs p).threads t).state ≠ .runnable)
      (entered : ({ s.procs p with state := .running } : Proc).enterThreads = some (x, none)) :
      SchedStep s c ((s.setProc p { x with state := .runnable }).setCpu c
        { proc := none, pc := .scan 0 })
  | faults (p : ProcId) (src : Source) (choosing : (s.cpus c).pc = .chosen p src)
      (threaded : (s.procs p).currentThread ≠ none)
      (entered : ({ s.procs p with state := .running } : Proc).enterThreads = none) :
      SchedStep s c ((s.setProc p { s.procs p with state := .running }).setCpu c
        { proc := some p, pc := .panicked .nullPointer })
  | stops (p : ProcId) (src : Source) (choosing : (s.cpus c).pc = .chosen p src)
      (missing : (s.procs p).usageTime = none) : SchedStep s c (s.panic c .nullPointer)

theorem readsNull_cases {reads : List ProcId} (null : s.readsNull reads = true) :
    ∃ p ∈ reads, (s.procs p).usageTime = none := by
  simpa [Kernel.readsNull] using null

theorem scanStep_cases (scanning : (s.cpus c).pc = .scan p) : SchedStep s c (s.scanStep c p) := by
  have pre : (s.cpus c).pc.handsFree := by rw [scanning]; rfl
  have inPass : (s.cpus c).pc.inPass := by rw [scanning]; rfl
  rw [Kernel.scanStep]
  split
  · rename_i overflow
    obtain ⟨full, absent⟩ := pqCheckAndPush_overflow overflow
    refine .moves _ pre inPass rfl (by simp) (fun _ => ⟨full, p, absent⟩) ?_
    rintro _ ⟨⟩ ne
    exact absurd rfl ne
  rename_i accepted pq pushed
  split
  · rename_i null
    obtain ⟨p', read, missing⟩ := readsNull_cases null
    refine .moves _ pre inPass rfl (by simp) (by simp) fun _ _ _ => ⟨p', ?_, missing⟩
    obtain ⟨runnable, rfl | mem⟩ := mem_pqCheckAndPushReads read
    · exact .inr runnable
    · exact .inl mem
  cases accepted with
  | true =>
    obtain ⟨runnable, absent, _, contents⟩ := procs_pqCheckAndPush pushed
    refine .pushes p pq _ scanning runnable absent contents ?_
    split
    · exact .inl ⟨_, rfl⟩
    · exact .inr rfl
  | false =>
    obtain ⟨kept, _⟩ := pqCheckAndPush_refused pushed
    rw [kept]
    refine .moves _ pre inPass ?_ ?_ ?_ ?_ <;> split <;> simp [SchedPc.handsFree]

theorem popPqStep_cases (popping : (s.cpus c).pc = .popPq) : SchedStep s c (s.popPqStep c) := by
  have pre : (s.cpus c).pc.handsFree := by rw [popping]; rfl
  have inPass : (s.cpus c).pc.inPass := by rw [popping]; rfl
  rw [Kernel.popPqStep]
  split
  · rename_i empty
    refine .moves _ pre inPass rfl (fun _ => ?_) (by simp) (by simp)
    by_contra ne
    obtain ⟨_, popped⟩ := pqPop_root s.usage (Nat.pos_of_ne_zero ne)
    rw [popped] at empty
    cases empty
  rename_i p pq popped
  have contents := procs_pqPop popped
  split
  · rename_i null
    obtain ⟨p', read, missing⟩ := readsNull_cases null
    exact .moves _ pre inPass rfl (by simp) (by simp)
      fun _ _ _ => ⟨p', .inl (mem_pqPopReads read), missing⟩
  split
  · rename_i missing
    exact .moves _ pre inPass rfl (by simp) (by simp)
      fun _ _ _ => ⟨p, .inl (by simp [contents]), missing⟩
  rename_i usage has
  split
  · rename_i late
    exact .drops p pq usage popping contents has late
  · rename_i early
    exact .chooses p pq usage popping contents has early

theorem popQStep_cases (popping : (s.cpus c).pc = .popQ) : SchedStep s c (s.popQStep c) := by
  rw [Kernel.popQStep]
  split
  · exact .moves _ (by rw [popping]; rfl) (by rw [popping]; rfl) rfl (by simp) (by simp) (by simp)
  · rename_i p q popped
    exact .unparks p q popping popped

/-- A dispatch finds no runnable thread only if there is none: the save before
the thread loop changes no state. -/
theorem enterThreads_stuck (entered : x.enterThreads = some (y, none))
    (t : ThreadId) : (x.threads t).state ≠ .runnable := by
  obtain ⟨saved, savedEq, looped⟩ := Option.bind_eq_some_iff.mp entered
  have states : ∀ t, (saved.threads t).state = (x.threads t).state := by
    intro t
    simp only [Proc.saveCurrent, Proc.saveTo] at savedEq
    split at savedEq
    · cases savedEq
      rfl
    rename_i cur _
    split at savedEq
    · cases savedEq
      rfl
    split at savedEq
    · cases savedEq
      by_cases same : t = cur
      · subst same
        simp
      · simp [same]
    · cases savedEq
  rw [Proc.threadLoop] at looped
  split at looped
  · rename_i noneLeft
    rw [Proc.nextRunnable, List.find?_eq_none] at noneLeft
    intro runnable
    refine noneLeft t (List.mem_finRange t) (decide_eq_true ⟨Nat.zero_le _, ?_⟩)
    rw [states]
    exact runnable
  · obtain ⟨_, _, pairEq⟩ := Option.map_eq_some_iff.mp looped
    cases pairEq

theorem enter_cases {t : Option ThreadId} (choosing : (s.cpus c).pc = .chosen p src)
    (same : ({ s.procs p with state := .running } : Proc).SameCore x)
    (single : (s.procs p).currentThread = none →
      t = none ∧ x = { s.procs p with state := .running })
    (entered : (s.procs p).currentThread ≠ none → t ≠ none ∧
      ({ s.procs p with state := .running } : Proc).enterThreads = some (x, t)) :
    SchedStep s c (s.enter c p t x) := by
  rw [Kernel.enter]
  split
  · rename_i missing
    rw [same.usageTime] at missing
    exact .stops p src choosing missing
  · rename_i usage has
    rw [same.usageTime] at has
    exact .enters p src t x usage choosing same has single entered

theorem dispatch_cases (choosing : (s.cpus c).pc = .chosen p src) :
    SchedStep s c (s.dispatch c p) := by
  simp only [Kernel.dispatch]
  split
  · rename_i single
    exact enter_cases choosing (.refl _) (fun _ => ⟨rfl, rfl⟩) fun threaded =>
      absurd single threaded
  rename_i cur threaded
  have notNone : (s.procs p).currentThread ≠ none := by simp [threaded]
  split
  · rename_i faulted
    exact .faults p src choosing notNone faulted
  · rename_i x entered
    have same := Proc.SameCore.enterThreads entered
    have running : x.state = .running := same.state
    rw [Kernel.leave, if_pos running]
    have stuck := enterThreads_stuck entered
    exact .rests p src x choosing same notNone stuck entered
  · rename_i x t entered
    exact enter_cases choosing (.enterThreads entered) (fun none => absurd none notNone)
      fun _ => ⟨by simp, entered⟩

/-- Every step of a scheduler has one of the listed effects. -/
theorem schedulerStep_cases (ran : s.schedulerStep c = some s') : SchedStep s c s' := by
  rw [Kernel.schedulerStep] at ran
  split at ran
  · rename_i p scanning
    cases ran
    exact scanStep_cases scanning
  · rename_i popping
    cases ran
    exact popPqStep_cases popping
  · rename_i popping
    cases ran
    exact popQStep_cases popping
  · rename_i p src choosing
    cases ran
    exact dispatch_cases choosing
  · cases ran
  · cases ran

/-- The steps of the kernel: of a scheduler, of an interrupt handler that wakes
processes, and of the process that a CPU executes. -/
inductive StepCase (s : Kernel n) : Action n → Kernel n → Prop where
  | scheduler {c : Fin n} {s' : Kernel n} (step : SchedStep s c s') : StepCase s (.scheduler c) s'
  | tick (c : Fin n) (stale : Nat) :
      StepCase s (.tick c stale) { s with ticks := s.ticks + 1, stale := stale }
  | wakes {act : Action n} (self : Option ProcId) (chan : Chan) (ticks : UInt32) (stale : Nat)
      (timer : act.isTimer = false → ticks = s.ticks) :
      StepCase s act
        { s with ticks := ticks, stale := stale, procs := wakeup self (some chan) s.procs }
  | proc {c : Fin n} {p : ProcId} {t : Option ThreadId} {act : ProcAction} {effect : Effect n}
      (runs : s.executing c = some (p, t)) (step : ProcStep s p act effect) :
      StepCase s (.proc c act) (s.finish c p t effect)

/-- Every step of the kernel is one of the listed ones. -/
theorem step_cases {act : Action n} (ran : s.step act = some s') : StepCase s act s' := by
  cases act with
  | scheduler => exact .scheduler (schedulerStep_cases ran)
  | clockintr =>
    obtain ⟨_, rfl⟩ := clockintr_step_cases ran
    exact .wakes _ _ _ _ nofun
  | tick =>
    rw [tick_step_cases ran]
    exact .tick _ _
  | wakeup _ chan =>
    obtain ⟨_, _, _, rfl⟩ := wakeup_step_cases ran
    exact .wakes _ chan _ _ fun _ => rfl
  | proc =>
    obtain ⟨_, _, _, runs, acted, rfl⟩ := proc_step_cases ran
    exact .proc runs (procAction_cases acted)

/-- The usage record of a process when the limit tests look at it. -/
def CpuUsage.settled (clock : Nat → UInt32) (usage : CpuUsage) : CpuUsage :=
  { usage.addRun (clock 0) with lastSchedTick := clock 1 }.addRun (clock 2)

/-- The state that the limit tests leave a process in. -/
inductive Limited (ticks : UInt32) (usage : CpuUsage) : ProcState → ProcState → Prop where
  | late (expired : usage.deadline ≤ ticks) : Limited ticks usage .runnable .dropped
  | overQuota (inTime : ¬ usage.deadline ≤ ticks) (used : usage.quota ≤ usage.sumOfTicks) :
      Limited ticks usage .runnable .passedQuota
  | within (inTime : ¬ usage.deadline ≤ ticks) (left : ¬ usage.quota ≤ usage.sumOfTicks) :
      Limited ticks usage .runnable .runnable
  | untested {state : ProcState} (other : state ≠ .runnable) : Limited ticks usage state state

/-- The quota queue after the limit tests. -/
def Kernel.limitedQueue (s : Kernel n) (p : ProcId) (pre after : ProcState) : Queue :=
  if pre = .runnable ∧ after = .passedQuota then (enqueue s.q p).2 else s.q

theorem limits_cases (s : Kernel n) (p : ProcId) (x : Proc) (usage : CpuUsage) :
    ∃ state, Limited s.ticks usage x.state state ∧
      s.limits p x usage = ({ x with state := state }, s.limitedQueue p x.state state) := by
  rw [Kernel.limits]
  by_cases runnable : x.state = .runnable
  · simp only [runnable, and_true]
    split
    · rename_i late
      exact ⟨.dropped, .late late, rfl⟩
    rename_i inTime
    split
    · rename_i used
      exact ⟨.passedQuota, .overQuota inTime used, rfl⟩
    rename_i left
    refine ⟨.runnable, .within inTime left, ?_⟩
    rw [Kernel.limitedQueue, if_neg (by simp), ← runnable]
  · exact ⟨x.state, .untested runnable, by simp [Kernel.limitedQueue, runnable]⟩

/-- What becomes of a process `p` that calls `sched` with the record `x`. -/
inductive SchedReturn (s : Kernel n) (c : Fin n) (p : ProcId) (t : Option ThreadId) (x : Proc) :
    Kernel n → Prop where
  | panics : SchedReturn s c p t x (s.panic c .nullPointer)
  | leaves (usage : CpuUsage) (state : ProcState) (y : Proc)
      (has : x.usageTime = some usage) (limited : Limited s.ticks (usage.settled s.ticksAt) x.state state)
      (same : ({ x with state := state, usageTime := some (usage.settled s.ticksAt) } :
        Proc).SameCore y)
      (single : t = none →
        y = { x with state := state, usageTime := some (usage.settled s.ticksAt) })
      (left : ∀ t', t = some t' →
        (state = .zombie ∨ state = .unused) ∧
            y = { x with state := state, usageTime := some (usage.settled s.ticksAt) } ∨
          ({ x with state := state, usageTime := some (usage.settled s.ticksAt) } :
            Proc).afterSwtch t' = some (y, none)) :
      SchedReturn s c p t x
        ({ s with q := s.limitedQueue p x.state state }.leave c p y)
  | reenters (usage : CpuUsage) (state : ProcState) (y : Proc) (t' t'' : ThreadId)
      (has : x.usageTime = some usage) (limited : Limited s.ticks (usage.settled s.ticksAt) x.state state)
      (threaded : t = some t') (alive : state ≠ .zombie)
      (left : ({ x with state := state, usageTime := some (usage.settled s.ticksAt) } :
        Proc).afterSwtch t' = some (y, some t'')) :
      SchedReturn s c p t x
        ({ s with q := s.limitedQueue p x.state state }.enter c p (some t'') y)

theorem sched_cases (s : Kernel n) (c : Fin n) (p : ProcId) (t : Option ThreadId) (x : Proc) :
    SchedReturn s c p t x (s.sched c p t x) := by
  rw [Kernel.sched]
  split
  · exact .panics
  rename_i usage has
  obtain ⟨state, lim, limitsEq⟩ := limits_cases s p
    { x with usageTime := some (usage.settled s.ticksAt) } (usage.settled s.ticksAt)
  simp only [CpuUsage.settled] at limitsEq lim
  simp only [limitsEq]
  cases t with
  | none => exact .leaves usage state _ has lim (.refl _) (fun _ => rfl) (by simp)
  | some t =>
    simp only [Kernel.afterSwtch]
    split
    · rename_i gone
      exact .leaves usage state _ has lim (.refl _) (fun _ => rfl)
        fun _ _ => .inl ⟨gone, rfl⟩
    rename_i alive
    split
    · exact .panics
    · rename_i y left
      refine .leaves usage state y has lim (.afterSwtch left) (by simp) ?_
      rintro _ same
      cases same
      exact .inr left
    · rename_i y t'' left
      exact .reenters usage state y t t'' has lim rfl (fun zombie => alive (.inl zombie))
        left

end CustomXv6

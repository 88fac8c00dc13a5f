/-
Module: CustomXv6.Kernel.Registers
Purpose: The way of a thread through usertrap and syscall, and the trapframe its process shares.
Trusted boundary: human-reviewed spec
Main exports: UserRun.step, registers_isolated
-/
import CustomXv6.Kernel.Threads

namespace CustomXv6

open Transition
open Function

/-! ### From a trap to the return to user mode -/

/-- Why a process enters `usertrap`: `ecall`, or the result 2, 1 or 0 of
`devintr`. -/
inductive Cause where
  | syscall
  | timer
  | device
  | unexpected
deriving DecidableEq, Repr

/-- Where a process is between user mode and its return there.  All its threads
share one kernel stack, so this does not depend on which thread's trapframe is
loaded. -/
inductive Phase where
  | user
  /-- `uservec` has saved the registers; `sepc` and `cause` are what the control
  registers of the CPU hold. -/
  | entered (sepc : UInt64) (cause : Cause)
  /-- In `syscall`, before it reads the number. -/
  | syscall
  | handler (num : Int) (a0 a1 a2 : UInt64)
  /-- The handler has returned to `syscall`. -/
  | handled (value : UInt64)
  /-- In `usertrap`, before its last `killed` test. -/
  | leaving (cause : Cause)
  /-- Before `usertrapret`. -/
  | returning (cause : Cause)
deriving DecidableEq, Repr

/-- The process can be preempted or may sleep.  Interrupts are on only in the
branch of `usertrap` for system calls. -/
def Phase.blocks : Phase → Bool
  | .syscall => true
  | .handler _ _ _ _ => true
  | .handled _ => true
  | .leaving cause => cause = .syscall
  | .returning cause => cause = .syscall
  | _ => false

/-- What happens to a process, in pieces between which it can be switched
away from. -/
inductive UserEvent where
  /-- User code runs and then traps with these registers; `epc` is the program
  counter. -/
  | trap (regs : UserRegs) (cause : Cause)
  /-- `usertrap` finds the deadline passed and yields.  When the process goes on,
  the control registers hold what is given here. -/
  | deadlineYield (sepc : UInt64) (cause : Cause)
  /-- `usertrap` from the store of `epc` through its branch on the cause. -/
  | usertrap
  /-- `syscall` reads the number and the handler its arguments. -/
  | dispatch
  | createThread (kalloc1 kalloc2 : Bool)
  | joinThread
  | exitThread
  /-- `exec`, with the entry point, the stack pointer and `argc` if it
  succeeds. -/
  | exec (image : Option (UInt64 × UInt64 × UInt64))
  /-- Any other handler returns. -/
  | otherCall (value : UInt64)
  /-- A `sleep` of a handler, or a timer interrupt in the kernel. -/
  | giveUp
  /-- `p->trapframe->a0 = ...` at the end of `syscall`. -/
  | storeResult
  | killedTest
  | usertrapret
  /-- Another process calls `kill`. -/
  | kill
deriving DecidableEq, Repr

abbrev sysExit : Int := 2

abbrev sysExec : Int := 7

abbrev sysCreateThread : Int := 24

abbrev sysJoinThread : Int := 25

abbrev sysExitThread : Int := 26

/-- `NELEM(syscalls)`. -/
abbrev nelemSyscalls : Int := 31

/-- `argint`: the low half of a register as an `int`. -/
def argint (value : UInt64) : Int := value.toUInt32.toInt32.toInt

/-- The process, if it executes again. -/
def Resumed.executing : Resumed → Option ThreadRun
  | .running run => some run
  | _ => none

/-- `p->trapframe->epc = r_sepc()`. -/
def UserRegs.saveEpc (sepc : UInt64) (regs : UserRegs) : UserRegs := { regs with epc := sepc }

/-- `p->trapframe->epc += 4`. -/
def UserRegs.skipEcall (regs : UserRegs) : UserRegs := { regs with epc := regs.epc + 4 }

namespace ThreadRun

/-- A store into the user registers of `p->trapframe`. -/
def store (run : ThreadRun) (change : UserRegs → UserRegs) : Option ThreadRun :=
  run.proc.trapframe.map fun frame =>
    { run with
      proc :=
        { run.proc with
          trapframe := some { frame with toUserRegs := change frame.toUserRegs } } }

/-- The rest of a thread call, with the value it returns. -/
def finishCall (run : ThreadRun) : ThreadCall → Option (ThreadRun × Int)
  | .fault => none
  | .failed p => some ({ run with proc := p }, -1)
  | .yields p => (giveUp { run with proc := p }).executing.map fun resumed => (resumed, 0)

end ThreadRun

/-- A process with its place between two critical points of the trap code. -/
structure UserRun where
  run : ThreadRun
  phase : Phase

namespace UserRun

/-- `usertrap` from `p->trapframe->epc = r_sepc()` through its branch on the
cause.  `exit(-1)` does not return. -/
def usertrap (u : UserRun) (sepc : UInt64) (cause : Cause) : Option UserRun :=
  (u.run.store (.saveEpc sepc)).bind fun run =>
    match cause with
    | .syscall =>
      if run.proc.killed then none
      else (run.store UserRegs.skipEcall).map (⟨·, .syscall⟩)
    | .timer => some ⟨run, .leaving .timer⟩
    | .device => some ⟨run, .leaving .device⟩
    | .unexpected =>
      if sepc = 0xfffffffffffffffe then
        (run.finishCall (run.proc.exitThread (-1))).map fun ended => ⟨ended.1, .leaving .unexpected⟩
      else some ⟨{ run with proc := { run.proc with killed := true } }, .leaving .unexpected⟩

/-- `syscall`, up to the call of the handler. -/
def dispatch (u : UserRun) : Option UserRun :=
  u.run.proc.trapframe.map fun frame =>
    { u with phase := .handler (argint frame.a7) frame.a0 frame.a1 frame.a2 }

/-- The stores of `exec` into the trapframe. -/
def exec (u : UserRun) : Option (UInt64 × UInt64 × UInt64) → Option UserRun
  | none => some { u with phase := .handled (-1) }
  | some (entry, sp, argc) =>
    (u.run.store fun regs => { regs with epc := entry, sp := sp, a1 := sp }).map
      (⟨·, .handled argc⟩)

def step (u : UserRun) (event : UserEvent) : Option UserRun :=
  match u.phase, event with
  | .user, .trap regs cause =>
    -- `uservec` saves everything but the program counter
    (u.run.store fun old => { regs with epc := old.epc }).map (⟨·, .entered regs.epc cause⟩)
  | .entered _ _, .deadlineYield sepc cause =>
    u.run.giveUp.executing.map (⟨·, .entered sepc cause⟩)
  | .entered sepc cause, .usertrap => u.usertrap sepc cause
  | .syscall, .dispatch => u.dispatch
  | .handler num a0 a1 a2, .createThread kalloc1 kalloc2 =>
    if num = sysCreateThread then
      (u.run.proc.createThread a0 a1 a2 kalloc1 kalloc2).map fun created =>
        ⟨{ u.run with proc := created.2 }, .handled (.ofInt created.1)⟩
    else none
  | .handler num a0 _ _, .joinThread =>
    if num = sysJoinThread then
      (u.run.finishCall (u.run.proc.joinThread (argint a0))).map fun ended =>
        ⟨ended.1, .handled (.ofInt ended.2)⟩
    else none
  | .handler num a0 _ _, .exitThread =>
    if num = sysExitThread then
      (u.run.finishCall (u.run.proc.exitThread (argint a0))).map fun ended =>
        ⟨ended.1, .handled (.ofInt ended.2)⟩
    else none
  | .handler num _ _ _, .exec image => if num = sysExec then u.exec image else none
  | .handler num _ _ _, .otherCall value =>
    if 0 < num ∧ num < nelemSyscalls then
      if num ∈ [sysExit, sysExec, sysCreateThread, sysJoinThread, sysExitThread] then none
      else some { u with phase := .handled value }
    else some { u with phase := .handled (-1) }
  | phase, .giveUp =>
    if phase.blocks then u.run.giveUp.executing.map (⟨·, phase⟩) else none
  | .handled value, .storeResult =>
    (u.run.store fun regs => { regs with a0 := value }).map (⟨·, .leaving .syscall⟩)
  | .leaving cause, .killedTest =>
    if u.run.proc.killed then none
    else if cause = .timer then u.run.giveUp.executing.map (⟨·, .returning .timer⟩)
    else some { u with phase := .returning cause }
  | .returning _, .usertrapret => some { u with phase := .user }
  | _, .kill => some { u with run := { u.run with proc := { u.run.proc with killed := true } } }
  | _, _ => none

end UserRun

/-! ### Threads with registers of their own -/

namespace Proc

/-- The thread whose registers are in `p->trapframe`.  A process without
threads counts as slot 0, where `create_thread` puts it. -/
def loaded (p : Proc) : ThreadId := p.currentThread.getD 0

/-- The slot holds a thread, or it is the one being executed. -/
def live (p : Proc) (k : ThreadId) : Prop := k = p.loaded ∨ (p.threads k).state ≠ .free

instance (p : Proc) (k : ThreadId) : Decidable (p.live k) :=
  inferInstanceAs (Decidable (k = p.loaded ∨ (p.threads k).state ≠ .free))

/-- Where the registers of a thread are. -/
def frame (p : Proc) (k : ThreadId) : Option Trapframe :=
  if k = p.loaded then p.trapframe else (p.threads k).trapframe

/-- The registers with which a thread runs next in user mode. -/
def registers (p : Proc) (k : ThreadId) : Option UserRegs := (p.frame k).map (·.toUserRegs)

end Proc

/-- The registers that `create_thread` gives to a new thread. -/
def UserRegs.entry (startRoutine arg pstack : UInt64) (regs : UserRegs) : UserRegs :=
  { regs with epc := startRoutine, sp := pstack, a0 := arg, ra := -1 }

/-- The registers of the thread that the caller of `create_thread(a0, a1, a2)`
asks for. -/
def UserRegs.startThread (regs : UserRegs) : UserRegs := .entry regs.a0 regs.a1 regs.a2 regs

/-- The registers after a system call that returns `value`. -/
def UserRegs.afterCall (value : UInt64) (regs : UserRegs) : UserRegs :=
  { regs with epc := regs.epc + 4, a0 := value }

/-- What the threads of a process may rely on: the registers of every thread,
and the thread that entered the kernel last. -/
structure Isolated where
  caller : ThreadId
  regs : ThreadId → Option UserRegs

/-- What a step of a process means for isolated threads.  Only the caller's
registers change, when it traps and when its call returns, and `create_thread`
gives registers to the new thread, whose id it returns. -/
def Isolated.observe (spec : Isolated) (pre : UserRun) (event : UserEvent)
    (after : UserRun) : Isolated :=
  let caller :=
    match event with
    | .trap _ _ => pre.run.proc.loaded
    | _ => spec.caller
  let regs :=
    match pre.phase, event with
    | _, .trap regs _ => update spec.regs caller (some regs)
    | .handler _ a0 a1 a2, .createThread kalloc1 kalloc2 =>
      match pre.run.proc.createThread a0 a1 a2 kalloc1 kalloc2 with
      | some (tid, _) => fun k =>
        if (k.val : Int) + 1 = tid then (spec.regs caller).map UserRegs.startThread else spec.regs k
      | none => spec.regs
    | .handled value, .storeResult =>
      update spec.regs caller ((spec.regs caller).map (UserRegs.afterCall value))
    | _, _ => spec.regs
  { caller := caller
    -- a thread that is gone has no registers
    regs := fun k => if after.run.proc.live k then regs k else none }

/-- A process and what its threads may rely on. -/
structure WatchedRun where
  user : UserRun
  spec : Isolated

namespace WatchedRun

def step (s : WatchedRun) (event : UserEvent) : Option WatchedRun :=
  (s.user.step event).map fun after => { user := after, spec := s.spec.observe s.user event after }

def start (run : ThreadRun) : WatchedRun :=
  { user := { run := run, phase := .user }
    spec := { caller := run.proc.loaded, regs := run.proc.registers } }

/-- The condition under which the shared trapframe does no harm.  The kernel
reads and writes it for a system call only while the caller's registers are in
it, no trap is taken after the deadline, `create_thread` is not called with
`current_thread` at a free slot, and no `exec` succeeds. -/
def undisturbed (s : WatchedRun) : UserEvent → Bool
  | .deadlineYield _ _ => false
  | .dispatch => s.user.run.proc.loaded = s.spec.caller
  | .createThread _ _ =>
    s.user.run.proc.loaded = s.spec.caller ∧
      ∀ t, s.user.run.proc.currentThread = some t → (s.user.run.proc.threads t).state ≠ .free
  | .exec image => image = none
  | .storeResult => s.user.run.proc.loaded = s.spec.caller
  | _ => true

end WatchedRun

/-! ### Switching threads keeps their registers -/

/-- A free slot has no trapframe. -/
def Proc.FreeNull (p : Proc) : Prop := ∀ t, (p.threads t).state = .free → (p.threads t).trapframe = none

variable {k t : ThreadId} {run' : ThreadRun} {tid : Int} {call : ThreadCall}
  {change : UserRegs → UserRegs} {event : UserEvent} {due : Option UserRegs}

namespace Proc

variable {p p' p'' : Proc}

@[simp] theorem frame_loaded : p.frame p.loaded = p.trapframe := by simp [frame]

theorem frame_of_ne (other : k ≠ p.loaded) :
    p.frame k = (p.threads k).trapframe := by simp [frame, other]

theorem loaded_of_current (cur : p.currentThread = some t) : p.loaded = t := by
  simp [loaded, cur]

theorem frame_setThread_of_ne (other : k ≠ t) (thread : Thread) :
    (p.setThread t thread).frame k = p.frame k := by
  rw [frame, setThread_threads, update_of_ne other]
  rfl

theorem live_setThread_of_ne (other : k ≠ t) (thread : Thread) :
    (p.setThread t thread).live k ↔ p.live k := by
  simp [live, loaded, other]

theorem FreeNull.setThread (free : p.FreeNull) (t : ThreadId) (thread : Thread)
    (freeNull : thread.state = .free → thread.trapframe = none) :
    (p.setThread t thread).FreeNull := by
  intro t' isFree
  by_cases same : t' = t
  · subst same
    simp only [setThread_threads, update_self] at isFree ⊢
    exact freeNull isFree
  · simp only [setThread_threads, update_of_ne same] at isFree ⊢
    exact free t' isFree

theorem FreeNull.frame_eq (free : p.FreeNull) (k : ThreadId) :
    p.frame k = if p.live k then p.frame k else none := by
  by_cases alive : p.live k
  · rw [if_pos alive]
  rw [if_neg alive]
  rw [live, not_or, not_not] at alive
  rw [frame_of_ne alive.1, free k alive.2]

/-- The threads that are left keep their registers, and no slot becomes
live. -/
structure Carries (p p' : Proc) : Prop where
  frames : ∀ k, p'.frame k = if p'.live k then p.frame k else none
  live : ∀ k, p'.live k → p.live k
  free : p'.FreeNull
  framed : p.trapframe ≠ none → p'.trapframe ≠ none

theorem FreeNull.carries (free : p.FreeNull) : Carries p p := ⟨free.frame_eq, fun _ => id, free, id⟩

theorem Carries.trans (first : Carries p p') (second : Carries p' p'') : Carries p p'' := by
  refine ⟨fun k => ?_, fun k alive => first.live k (second.live k alive), second.free,
    fun framed => second.framed (first.framed framed)⟩
  rw [second.frames]
  by_cases alive : p''.live k
  · rw [if_pos alive, if_pos alive, first.frames, if_pos (second.live k alive)]
  · rw [if_neg alive, if_neg alive]

/-- Changes to the slot of the loaded thread do not matter, as long as it does
not become free with a trapframe. -/
theorem FreeNull.carries_loaded (free : p.FreeNull) (thread : Thread)
    (freeNull : thread.state = .free → thread.trapframe = none) :
    Carries p (p.setThread p.loaded thread) := by
  have sameFrame : ∀ k, (p.setThread p.loaded thread).frame k = p.frame k := by
    intro k
    by_cases same : k = p.loaded
    · simp [frame, loaded, same]
    · exact frame_setThread_of_ne same thread
  have sameLive : ∀ k, (p.setThread p.loaded thread).live k ↔ p.live k := by
    intro k
    by_cases same : k = p.loaded
    · exact iff_of_true (.inl same) (.inl same)
    · exact live_setThread_of_ne same thread
  refine ⟨fun k => ?_, fun k alive => (sameLive k).mp alive, free.setThread p.loaded thread freeNull, id⟩
  simp only [sameFrame, sameLive]
  exact free.frame_eq k

/-- The slot of the loaded thread is up to date, or free. -/
def Synced (p : Proc) : Prop :=
  (p.threads p.loaded).trapframe = p.trapframe ∨ (p.threads p.loaded).state = .free

variable (free : p.FreeNull)
include free

/-- Both copies out of `p->trapframe`, which go to the loaded thread's slot. -/
theorem carries_saveTo (live : (p.threads p.loaded).state ≠ .free)
    (saved : p.saveTo p.loaded = some p') :
    Carries p p' ∧ p'.Synced ∧ p'.currentThread = p.currentThread := by
  rw [saveTo] at saved
  split at saved
  · rename_i target frame _ frameEq
    cases saved
    refine ⟨free.carries_loaded _ fun isFree => absurd isFree live, .inl ?_, rfl⟩
    change (update p.threads p.loaded _ p.loaded).trapframe = p.trapframe
    rw [update_self, frameEq]
  · cases saved

theorem carries_saveCurrent (saved : p.saveCurrent = some p') (threaded : p.currentThread ≠ none) :
    Carries p p' ∧ p'.Synced ∧ p'.currentThread = p.currentThread := by
  rw [saveCurrent] at saved
  split at saved
  · contradiction
  rename_i t cur
  rw [← loaded_of_current cur] at saved
  split at saved
  · rename_i isFree
    cases saved
    exact ⟨free.carries, .inr isFree, rfl⟩
  · rename_i live
    exact carries_saveTo free live saved

theorem carries_leaveThread (left : p.leaveThread p.loaded = some p') :
    Carries p p' ∧ p'.Synced ∧ p'.currentThread = p.currentThread := by
  simp only [leaveThread] at left
  split at left
  · have relabelled := free.carries_loaded { p.threads p.loaded with state := .runnable }
      (by simp)
    have live : ((p.setThread p.loaded { p.threads p.loaded with state := .runnable }).threads
        p.loaded).state ≠ .free := by
      simp
    rw [if_neg live] at left
    obtain ⟨carried, synced, cur⟩ := carries_saveTo relabelled.free live left
    exact ⟨relabelled.trans carried, synced, cur⟩
  split at left
  · rename_i isFree
    cases left
    exact ⟨free.carries, .inr isFree, rfl⟩
  · rename_i live
    exact carries_saveTo free live left

/-- The copy into `p->trapframe`: the registers of the thread that was there
before are in its slot by now. -/
theorem carries_loadThread (synced : p.Synced) (live : (p.threads t).state ≠ .free)
    (loaded : p.loadThread t = some p') : Carries p p' ∧ p'.currentThread = some t := by
  rw [loadThread] at loaded
  split at loaded
  · rename_i frame _ frameEq _
    cases loaded
    have slot : ∀ k, (p.threads k).state ≠ .free → p.frame k = (p.threads k).trapframe := by
      intro k alive
      by_cases same : k = p.loaded
      · subst same
        rw [frame_loaded]
        exact (synced.resolve_right alive).symm
      · exact frame_of_ne same
    refine ⟨⟨fun k => ?_, fun k alive => ?_, fun k isFree => ?_, fun _ => by simp⟩, rfl⟩
    · by_cases same : k = t
      · subst same
        rw [slot k live, frameEq]
        simp [Proc.frame, Proc.live, Proc.loaded]
      by_cases isFree : (p.threads k).state = .free
      · simp [Proc.frame, Proc.live, Proc.loaded, same, isFree, free k isFree]
      · rw [slot k isFree]
        simp [Proc.frame, Proc.live, Proc.loaded, same, isFree]
    · by_cases same : k = t
      · exact .inr (same ▸ live)
      · simp [Proc.live, Proc.loaded, same] at alive
        exact .inr alive
    · exact free.setThread t { p.threads t with state := .running }
        (by simp) k isFree
  · cases loaded

theorem carries_threadLoop {start : Nat} {stop : Option ThreadId}
    (synced : p.Synced) (looped : p.threadLoop start = some (p', stop)) :
    Carries p p' ∧ ∀ t, stop = some t → p'.currentThread = some t := by
  rw [threadLoop] at looped
  split at looped
  · cases looped
    exact ⟨free.carries, (by simp)⟩
  rename_i t found
  have runnable : (p.threads t).state = .runnable := by
    have test := List.find?_some found
    simp only [decide_eq_true_eq] at test
    exact test.2
  obtain ⟨_, loaded, pairEq⟩ := Option.map_eq_some_iff.mp looped
  cases pairEq
  obtain ⟨carried, cur⟩ := carries_loadThread free synced (by simp [runnable]) loaded
  exact ⟨carried, fun t' same => by cases same; exact cur⟩

theorem carries_redispatch {run : ThreadRun} (resumed : p.redispatch = .running run) :
    Carries p run.proc ∧ ∀ t, run.loop = some t → run.proc.currentThread = some t := by
  rw [redispatch] at resumed
  split at resumed
  · cases resumed
    exact ⟨free.carries, (by simp)⟩
  rename_i last cur
  cases entered : p.enterThreads with
  | none => simp [entered] at resumed
  | some res =>
    obtain ⟨_, stop⟩ := res
    obtain ⟨_, savedEq, looped⟩ := Option.bind_eq_some_iff.mp entered
    obtain ⟨carried, synced, _⟩ := carries_saveCurrent free savedEq (by simp [cur])
    obtain ⟨entersLoop, switched⟩ := carries_threadLoop carried.free synced looped
    cases stop with
    | none => simp [entered] at resumed
    | some =>
      simp only [entered, Resumed.running.injEq] at resumed
      subst resumed
      exact ⟨carried.trans entersLoop, switched⟩

end Proc

/-- Wherever a process gives up the CPU, its threads keep their registers. -/
theorem carries_giveUp (run : ThreadRun) (free : run.proc.FreeNull)
    (loop : ∀ t, run.loop = some t → run.proc.currentThread = some t)
    (resumed : run.giveUp.executing = some run') :
    Proc.Carries run.proc run'.proc ∧
      ∀ t, run'.loop = some t → run'.proc.currentThread = some t := by
  have running : run.giveUp = .running run' := by
    cases outcome : run.giveUp <;> simp_all [Resumed.executing]
  rw [ThreadRun.giveUp] at running
  split at running
  · exact Proc.carries_redispatch free running
  rename_i t looped
  have cur := loop t looped
  cases left : run.proc.afterSwtch t with
  | none => simp [left] at running
  | some res =>
    obtain ⟨_, stop⟩ := res
    obtain ⟨_, savedEq, looped⟩ := Option.bind_eq_some_iff.mp left
    rw [← Proc.loaded_of_current cur] at savedEq
    obtain ⟨carried, synced, _⟩ := Proc.carries_leaveThread free savedEq
    obtain ⟨goesOn, switched⟩ := Proc.carries_threadLoop carried.free synced looped
    cases stop with
    | none =>
      simp only [left] at running
      obtain ⟨dispatched, ok⟩ := Proc.carries_redispatch goesOn.free running
      exact ⟨(carried.trans goesOn).trans dispatched, ok⟩
    | some =>
      simp only [left, Resumed.running.injEq] at running
      subst running
      exact ⟨carried.trans goesOn, switched⟩

/-! ### The thread calls -/

namespace Proc

variable {p p' : Proc}

/-- The registers of a slot that holds no thread. -/
theorem FreeNull.registers_dead (free : p.FreeNull) (dead : ¬ p.live k) : p.registers k = none := by
  rw [registers, free.frame_eq, if_neg dead, Option.map_none]

/-- The threads that are left have the registers they had before. -/
structure Keeps (p p' : Proc) : Prop where
  registers : ∀ k, p'.registers k = if p'.live k then p.registers k else none
  free : p'.FreeNull
  framed : p.trapframe ≠ none → p'.trapframe ≠ none

theorem Carries.keeps (carried : Carries p p') : Keeps p p' := by
  refine ⟨fun k => ?_, carried.free, carried.framed⟩
  rw [Proc.registers, carried.frames]
  split <;> rfl

theorem FreeNull.carries_freed (free : p.FreeNull) (t : ThreadId) :
    Carries p (p.setThread t (freethread (p.threads t))) := by
  by_cases same : t = p.loaded
  · subst same
    exact free.carries_loaded _ fun _ => rfl
  refine ⟨fun k => ?_, fun k alive => ?_, free.setThread t _ fun _ => rfl, id⟩
  · by_cases freed : k = t
    · subst freed
      have dead : ¬ (p.setThread k (freethread (p.threads k))).live k := by
        simpa [Proc.live, Proc.loaded, freethread] using same
      rw [if_neg dead, frame_of_ne (p := p.setThread k _) same]
      simp [freethread]
    · simp only [frame_setThread_of_ne freed, live_setThread_of_ne freed]
      exact free.frame_eq k
  by_cases freed : k = t
  · subst freed
    simp [Proc.live, Proc.loaded, freethread] at alive
    exact .inl alive
  · exact (live_setThread_of_ne freed _).mp alive

/-- A thread call may wake slots and free one, or change the caller's slot. -/
def Leaves (p p' : Proc) : Prop :=
  ∃ base : Proc, base.registers = p.registers ∧ base.trapframe = p.trapframe ∧
    Carries base p' ∧ p'.currentThread = p.currentThread

theorem Keeps.of_leaves {p'' : Proc} {base : Proc} (registers : base.registers = p.registers)
    (trapframe : base.trapframe = p.trapframe) (carried : Carries base p'') : Keeps p p'' := by
  have kept := carried.keeps
  refine ⟨fun k => ?_, kept.free, fun framed => kept.framed (trapframe ▸ framed)⟩
  rw [kept.registers, registers]

theorem joinThread_leaves (free : p.FreeNull)
    (called : p.joinThread tid = .failed p' ∨ p.joinThread tid = .yields p') : Leaves p p' := by
  rw [joinThread] at called
  split at called
  · rcases called with failed | never
    · cases failed
      exact ⟨p, rfl, rfl, free.carries, rfl⟩
    · cases never
  split at called
  · rcases called with never | never <;> cases never
  rename_i caller cur
  rcases called with never | yields
  · cases never
  cases yields
  rw [← loaded_of_current cur]
  exact ⟨p, rfl, rfl, free.carries_loaded _ (by simp), rfl⟩

theorem wakeJoiners_freeNull (free : p.FreeNull) (tid : Int) : (p.wakeJoiners tid).FreeNull := by
  intro t isFree
  rw [wakeJoiners_threads, wakeJoiner] at isFree ⊢
  split at isFree
  · cases isFree
  rename_i waits
  rw [if_neg waits]
  exact free t isFree

theorem wakeJoiners_registers (tid : Int) : (p.wakeJoiners tid).registers = p.registers := by
  funext k
  simp only [registers, frame, wakeJoiners_threads, wakeJoiner_trapframe]
  rfl

theorem exitT_leaves (free : p.FreeNull)
    (called : p.exitT tid = .failed p' ∨ p.exitT tid = .yields p') : Leaves p p' := by
  have woken := wakeJoiners_freeNull free tid
  have failed : Leaves p (p.wakeJoiners tid) :=
    ⟨p.wakeJoiners tid, wakeJoiners_registers tid, rfl, woken.carries, rfl⟩
  rcases exitT_cases p tid with ⟨outcome, _⟩ | ⟨target, _, ⟨outcome, _⟩ | ⟨outcome, _⟩⟩ <;>
    rw [outcome] at called <;> rcases called with same | same <;> cases same
  · exact failed
  · exact failed
  · exact ⟨p.wakeJoiners tid, wakeJoiners_registers tid, rfl, woken.carries_freed target, rfl⟩

theorem exitThread_leaves (free : p.FreeNull)
    (called : p.exitThread tid = .failed p' ∨ p.exitThread tid = .yields p') : Leaves p p' := by
  rw [exitThread] at called
  split at called
  · split at called
    · rcases called with never | never <;> cases never
    · exact exitT_leaves free called
  · exact exitT_leaves free called

/-- `create_thread` gives registers to the thread whose id it returns and to no other. -/
structure Creates (p p' : Proc) (startRoutine arg pstack : UInt64) (tid : Int) : Prop where
  free : p'.FreeNull
  cur : ∀ t, p.currentThread = some t → p'.currentThread = some t
  loaded : p'.loaded = p.loaded
  trapframe : p'.trapframe = p.trapframe
  fresh : ∀ k : ThreadId, (k.val : Int) + 1 = tid → p'.live k ∧ k ≠ p.loaded
  registers : ∀ k : ThreadId, p'.registers k =
    if (k.val : Int) + 1 = tid then (p.registers p.loaded).map (.entry startRoutine arg pstack)
    else if p'.live k then p.registers k else none

variable {startRoutine arg pstack : UInt64}

/-- A call that fails. -/
theorem Carries.creates (carried : Carries p p') (cur : p'.currentThread = p.currentThread)
    (trapframe : p'.trapframe = p.trapframe) : Creates p p' startRoutine arg pstack (-1) where
  free := carried.free
  cur := fun _ threaded => cur.trans threaded
  loaded := by rw [Proc.loaded, cur, Proc.loaded]
  trapframe := trapframe
  fresh := fun k never => by omega
  registers := by
    intro k
    exact carried.keeps.registers k

/-- The stores of `create_thread` into a slot that is not the caller's. -/
theorem newThread_creates (free : p.FreeNull) (other : t ≠ p.loaded)
    (stored : p.newThread t startRoutine arg pstack = some p') :
    Creates p p' startRoutine arg pstack (t.val + 1) := by
  obtain ⟨_, frameEq, rfl⟩ := Option.map_eq_some_iff.mp stored
  have slot : ∀ k : ThreadId, (k.val : Int) + 1 = t.val + 1 ↔ k = t := by
    intro k
    rw [Fin.ext_iff]
    omega
  refine ⟨free.setThread t _ nofun, fun _ => id, rfl, rfl, fun k new => ?_, fun k => ?_⟩
  · rw [slot] at new
    subst new
    exact ⟨.inr (by simp), other⟩
  by_cases new : k = t
  · subst new
    rw [if_pos rfl, registers, frame_of_ne (p := p.setThread k _) other]
    simp [registers, frameEq, UserRegs.entry]
  · rw [if_neg (mt (slot k).mp new), registers, frame_setThread_of_ne new]
    simp only [live_setThread_of_ne new]
    exact free.carries.keeps.registers k

/-- `create_thread` once the process has a current thread takes another slot. -/
theorem createSecond_creates {kalloc flag : Bool} (free : p.FreeNull)
    (live : (p.threads p.loaded).state ≠ .free)
    (new : p.createSecond startRoutine arg pstack kalloc flag = some (tid, p')) :
    Creates p p' startRoutine arg pstack tid := by
  rw [createSecond] at new
  split at new
  · cases new
    exact free.carries.creates rfl rfl
  rename_i t found
  have isFree := firstFree_state found
  have other : t ≠ p.loaded := by
    rintro rfl
    exact live isFree
  split at new
  · obtain ⟨_, stored, pairEq⟩ := Option.map_eq_some_iff.mp new
    cases pairEq
    exact newThread_creates free other stored
  simp only [setThread_clear (free t isFree)] at new
  split at new
  · cases new
    exact (free.carries_freed _).creates rfl rfl
  · cases new
    exact free.carries.creates rfl rfl

/-- The main thread takes over the registers of the process. -/
theorem makeMain_registers {main : Proc} (free : p.FreeNull) (single : p.currentThread = none)
    (made : p.makeMain = some main) :
    main.FreeNull ∧ main.currentThread = some 0 ∧ (main.threads 0).state ≠ .free ∧
      main.trapframe = p.trapframe ∧ main.registers = p.registers := by
  obtain ⟨frame, _, rfl⟩ := Option.map_eq_some_iff.mp made
  have mainFree := free.setThread 0
    { state := .runnable, trapframe := some frame, id := 1, join := 0 } fun isFree => by
      cases isFree
  refine ⟨mainFree, rfl, by simp, rfl, ?_⟩
  funext k
  by_cases same : k = 0
  · subst same
    simp [registers, Proc.frame, loaded, single]
  · simp [registers, Proc.frame, loaded, single, same]

/-- What `create_thread` does, unless `current_thread` points to a free
slot. -/
theorem createThread_creates {kalloc1 kalloc2 : Bool} (free : p.FreeNull)
    (live : ∀ t, p.currentThread = some t → (p.threads t).state ≠ .free)
    (created : p.createThread startRoutine arg pstack kalloc1 kalloc2 = some (tid, p')) :
    Creates p p' startRoutine arg pstack tid := by
  rw [createThread] at created
  split at created
  · rename_i single
    have zero : p.loaded = 0 := by simp [loaded, single]
    split at created
    · obtain ⟨main, made, second⟩ := Option.bind_eq_some_iff.mp created
      obtain ⟨mainFree, mainCurrent, _, mainFrame, sameRegisters⟩ :=
        makeMain_registers free single made
      have mainLoaded : main.loaded = p.loaded := (loaded_of_current mainCurrent).trans zero.symm
      have creates := createSecond_creates mainFree (by rwa [loaded_of_current mainCurrent]) second
      refine ⟨creates.free, fun t never => ?_, creates.loaded.trans mainLoaded,
        creates.trapframe.trans mainFrame, fun k new => ?_, fun k => ?_⟩
      · rw [single] at never
        cases never
      · rw [← mainLoaded]
        exact creates.fresh k new
      · rw [creates.registers k, sameRegisters, mainLoaded]
    · cases created
      have cleared := free.carries_loaded { p.threads p.loaded with trapframe := none } fun _ => rfl
      rw [zero] at cleared
      exact cleared.creates rfl rfl
  rename_i t cur
  have loadedLive : (p.threads p.loaded).state ≠ .free := by
    rw [loaded_of_current cur]
    exact live t cur
  exact createSecond_creates free loadedLive created

end Proc

/-- The rest of a thread call. -/
theorem finishCall_keeps {run : ThreadRun} {value : Int}
    (loop : ∀ t, run.loop = some t → run.proc.currentThread = some t)
    (leaves : ∀ p, call = .failed p ∨ call = .yields p → run.proc.Leaves p)
    (done : run.finishCall call = some (run', value)) :
    run.proc.Keeps run'.proc ∧ ∀ t, run'.loop = some t → run'.proc.currentThread = some t := by
  cases call with
  | fault => cases done
  | failed p =>
    cases done
    obtain ⟨_, registers, trapframe, carried, cur⟩ := leaves p (.inl rfl)
    exact ⟨.of_leaves registers trapframe carried, fun t looped => cur.trans (loop t looped)⟩
  | yields p =>
    obtain ⟨_, running, pairEq⟩ := Option.map_eq_some_iff.mp done
    cases pairEq
    obtain ⟨_, registers, trapframe, carried, cur⟩ := leaves p (.inr rfl)
    obtain ⟨switched, afterLoop⟩ := carries_giveUp { run with proc := p } carried.free
      (fun t looped => cur.trans (loop t looped)) running
    exact ⟨.of_leaves registers trapframe (carried.trans switched), afterLoop⟩

/-- A store into `p->trapframe` changes the registers of the loaded thread. -/
theorem store_registers {run : ThreadRun} (free : run.proc.FreeNull)
    (stored : run.store change = some run') :
    run'.loop = run.loop ∧ run'.proc.currentThread = run.proc.currentThread ∧
      run'.proc.FreeNull ∧ run'.proc.trapframe ≠ none ∧ run'.proc.loaded = run.proc.loaded ∧
      (∀ k, run'.proc.live k ↔ run.proc.live k) ∧
      run'.proc.registers run.proc.loaded = (run.proc.registers run.proc.loaded).map change ∧
      ∀ k, k ≠ run.proc.loaded → run'.proc.registers k = run.proc.registers k := by
  obtain ⟨frame, frameEq, rfl⟩ := Option.map_eq_some_iff.mp stored
  refine ⟨rfl, rfl, free, by simp, rfl, fun k => Iff.rfl, ?_, fun k other => ?_⟩
  · simp [Proc.registers, Proc.frame, Proc.loaded, frameEq]
  · rw [Proc.registers, Proc.registers, Proc.frame_of_ne other]
    let changed : Trapframe := { frame with toUserRegs := change frame.toUserRegs }
    exact congrArg _ (Proc.frame_of_ne (p := { run.proc with trapframe := some changed }) other)

/-- Two stores in a row. -/
theorem store_store {run run'' : ThreadRun} {first second : UserRegs → UserRegs}
    (stored : run.store first = some run') (storedAgain : run'.store second = some run'') :
    run.store (second ∘ first) = some run'' := by
  obtain ⟨frame, frameEq, rfl⟩ := Option.map_eq_some_iff.mp stored
  obtain ⟨_, frameEq', rfl⟩ := Option.map_eq_some_iff.mp storedAgain
  cases frameEq'
  exact Option.map_eq_some_iff.mpr ⟨frame, frameEq, rfl⟩

/-! ### Inversion -/

/-- Everything a step of a process can do. -/
inductive UserStep : UserRun → UserEvent → UserRun → Prop where
  | trap {run saved : ThreadRun} (regs : UserRegs) (cause : Cause)
      (stored : run.store (fun old => { regs with epc := old.epc }) = some saved) :
      UserStep ⟨run, .user⟩ (.trap regs cause) ⟨saved, .entered regs.epc cause⟩
  | deadlineYield {run resumed : ThreadRun} (sepc sepc' : UInt64) (cause cause' : Cause)
      (executing : run.giveUp.executing = some resumed) :
      UserStep ⟨run, .entered sepc cause⟩ (.deadlineYield sepc' cause')
        ⟨resumed, .entered sepc' cause'⟩
  | usertrap {run : ThreadRun} {after : UserRun} (sepc : UInt64) (cause : Cause)
      (trapped : UserRun.usertrap ⟨run, .entered sepc cause⟩ sepc cause = some after) :
      UserStep ⟨run, .entered sepc cause⟩ .usertrap after
  | dispatch {run : ThreadRun} (frame : Trapframe) (has : run.proc.trapframe = some frame) :
      UserStep ⟨run, .syscall⟩ .dispatch
        ⟨run, .handler (argint frame.a7) frame.a0 frame.a1 frame.a2⟩
  | createThread {run : ThreadRun} (a0 a1 a2 : UInt64) (kalloc1 kalloc2 : Bool) (tid : Int)
      (p : Proc) (created : run.proc.createThread a0 a1 a2 kalloc1 kalloc2 = some (tid, p)) :
      UserStep ⟨run, .handler sysCreateThread a0 a1 a2⟩ (.createThread kalloc1 kalloc2)
        ⟨{ run with proc := p }, .handled (.ofInt tid)⟩
  | joinThread {run : ThreadRun} (a0 a1 a2 : UInt64) (ended : ThreadRun × Int)
      (finished : run.finishCall (run.proc.joinThread (argint a0)) = some ended) :
      UserStep ⟨run, .handler sysJoinThread a0 a1 a2⟩ .joinThread
        ⟨ended.1, .handled (.ofInt ended.2)⟩
  | exitThread {run : ThreadRun} (a0 a1 a2 : UInt64) (ended : ThreadRun × Int)
      (finished : run.finishCall (run.proc.exitThread (argint a0)) = some ended) :
      UserStep ⟨run, .handler sysExitThread a0 a1 a2⟩ .exitThread
        ⟨ended.1, .handled (.ofInt ended.2)⟩
  | execFails {run : ThreadRun} (a0 a1 a2 : UInt64) :
      UserStep ⟨run, .handler sysExec a0 a1 a2⟩ (.exec none) ⟨run, .handled (-1)⟩
  | exec {run saved : ThreadRun} (a0 a1 a2 entry sp argc : UInt64)
      (stored : run.store (fun regs => { regs with epc := entry, sp := sp, a1 := sp }) =
        some saved) :
      UserStep ⟨run, .handler sysExec a0 a1 a2⟩ (.exec (some (entry, sp, argc)))
        ⟨saved, .handled argc⟩
  | otherCall {run : ThreadRun} (num : Int) (a0 a1 a2 value res : UInt64) :
      UserStep ⟨run, .handler num a0 a1 a2⟩ (.otherCall value) ⟨run, .handled res⟩
  | giveUp {run resumed : ThreadRun} (phase : Phase) (blocks : phase.blocks)
      (executing : run.giveUp.executing = some resumed) :
      UserStep ⟨run, phase⟩ .giveUp ⟨resumed, phase⟩
  | storeResult {run saved : ThreadRun} (value : UInt64)
      (stored : run.store (fun regs => { regs with a0 := value }) = some saved) :
      UserStep ⟨run, .handled value⟩ .storeResult ⟨saved, .leaving .syscall⟩
  | timerYield {run resumed : ThreadRun} (executing : run.giveUp.executing = some resumed) :
      UserStep ⟨run, .leaving .timer⟩ .killedTest ⟨resumed, .returning .timer⟩
  | killedTest {run : ThreadRun} (cause : Cause) :
      UserStep ⟨run, .leaving cause⟩ .killedTest ⟨run, .returning cause⟩
  | usertrapret {run : ThreadRun} (cause : Cause) :
      UserStep ⟨run, .returning cause⟩ .usertrapret ⟨run, .user⟩
  | kill {run : ThreadRun} (phase : Phase) :
      UserStep ⟨run, phase⟩ .kill
        ⟨{ run with proc := { run.proc with killed := true } }, phase⟩

theorem UserRun.step_giveUp (u : UserRun) :
    u.step .giveUp =
      if u.phase.blocks then u.run.giveUp.executing.map (⟨·, u.phase⟩) else none := by
  obtain ⟨_, phase⟩ := u
  cases phase <;> rfl

theorem userStep_cases {u u' : UserRun} (ran : u.step event = some u') : UserStep u event u' := by
  obtain ⟨_, phase⟩ := u
  -- each event but `giveUp` and `kill` belongs to one phase
  cases event with
  | giveUp =>
    rw [UserRun.step_giveUp] at ran
    obtain ⟨blocks, made⟩ := Option.ite_none_right_eq_some.mp ran
    obtain ⟨_, executing, rfl⟩ := Option.map_eq_some_iff.mp made
    exact .giveUp phase blocks executing
  | kill => cases phase <;> cases ran <;> exact .kill _
  | trap regs cause =>
    cases phase with
    | user =>
      obtain ⟨_, stored, rfl⟩ := Option.map_eq_some_iff.mp ran
      exact .trap regs cause stored
    | _ => cases ran
  | deadlineYield sepc' cause' =>
    cases phase with
    | entered sepc cause =>
      obtain ⟨_, executing, rfl⟩ := Option.map_eq_some_iff.mp ran
      exact .deadlineYield sepc sepc' cause cause' executing
    | _ => cases ran
  | usertrap =>
    cases phase with
    | entered sepc cause => exact .usertrap sepc cause ran
    | _ => cases ran
  | dispatch =>
    cases phase with
    | syscall =>
      obtain ⟨frame, has, rfl⟩ := Option.map_eq_some_iff.mp ran
      exact .dispatch frame has
    | _ => cases ran
  | createThread kalloc1 kalloc2 =>
    cases phase with
    | handler _ a0 a1 a2 =>
      obtain ⟨rfl, made⟩ := Option.ite_none_right_eq_some.mp ran
      obtain ⟨⟨tid, p⟩, new, rfl⟩ := Option.map_eq_some_iff.mp made
      exact .createThread a0 a1 a2 kalloc1 kalloc2 tid p new
    | _ => cases ran
  | joinThread =>
    cases phase with
    | handler _ a0 a1 a2 =>
      obtain ⟨rfl, made⟩ := Option.ite_none_right_eq_some.mp ran
      obtain ⟨ended, done, rfl⟩ := Option.map_eq_some_iff.mp made
      exact .joinThread a0 a1 a2 ended done
    | _ => cases ran
  | exitThread =>
    cases phase with
    | handler _ a0 a1 a2 =>
      obtain ⟨rfl, made⟩ := Option.ite_none_right_eq_some.mp ran
      obtain ⟨ended, done, rfl⟩ := Option.map_eq_some_iff.mp made
      exact .exitThread a0 a1 a2 ended done
    | _ => cases ran
  | exec image =>
    cases phase with
    | handler _ a0 a1 a2 =>
      obtain ⟨rfl, made⟩ := Option.ite_none_right_eq_some.mp ran
      cases image with
      | none =>
        cases made
        exact .execFails a0 a1 a2
      | some image =>
        obtain ⟨_, stored, rfl⟩ := Option.map_eq_some_iff.mp made
        exact .exec a0 a1 a2 image.1 image.2.1 image.2.2 stored
    | _ => cases ran
  | otherCall value =>
    cases phase with
    | handler num a0 a1 a2 =>
      simp only [UserRun.step] at ran
      split at ran
      · obtain ⟨_, made⟩ := Option.ite_none_left_eq_some.mp ran
        cases made
        exact .otherCall num a0 a1 a2 value _
      · cases ran
        exact .otherCall num a0 a1 a2 value _
    | _ => cases ran
  | storeResult =>
    cases phase with
    | handled value =>
      obtain ⟨_, stored, rfl⟩ := Option.map_eq_some_iff.mp ran
      exact .storeResult value stored
    | _ => cases ran
  | killedTest =>
    cases phase with
    | leaving cause =>
      obtain ⟨_, made⟩ := Option.ite_none_left_eq_some.mp ran
      split at made
      · rename_i timer
        subst timer
        obtain ⟨_, executing, rfl⟩ := Option.map_eq_some_iff.mp made
        exact .timerYield executing
      · cases made
        exact .killedTest cause
    | _ => cases ran
  | usertrapret =>
    cases phase with
    | returning cause =>
      cases ran
      exact .usertrapret cause
    | _ => cases ran

/-! ### Isolation over a run -/

/-- How the registers of the caller in the trapframe compare with those it may
rely on, in each phase of its call. -/
def Phase.Own : Phase → Option UserRegs → Option UserRegs → Prop
  | .entered sepc _, actual, due => actual.map (.saveEpc sepc) = due
  | .syscall, actual, due => actual = due.map UserRegs.skipEcall
  | .handler _ a0 a1 a2, actual, due =>
    actual = due.map UserRegs.skipEcall ∧
      ∀ regs, due = some regs → a0 = regs.a0 ∧ a1 = regs.a1 ∧ a2 = regs.a2
  | .handled _, actual, due => actual = due.map UserRegs.skipEcall
  | _, actual, due => actual = due

theorem Phase.own_none (phase : Phase) : phase.Own none none := by
  cases phase <;> simp [Own]

theorem Phase.Own.due_none {phase : Phase} (own : phase.Own none due) : due = none := by
  cases phase <;> simp_all [Own]

namespace WatchedRun

structure Inv (s : WatchedRun) : Prop where
  loop : ∀ t, s.user.run.loop = some t → s.user.run.proc.currentThread = some t
  free : s.user.run.proc.FreeNull
  framed : s.user.run.proc.trapframe ≠ none
  own : s.user.phase.Own (s.user.run.proc.registers s.spec.caller) (s.spec.regs s.spec.caller)
  others : ∀ k, k ≠ s.spec.caller → s.user.run.proc.registers k = s.spec.regs k
  entered : ∀ sepc cause, s.user.phase = .entered sepc cause →
    s.user.run.proc.loaded = s.spec.caller

variable {s : WatchedRun}
variable {phase : Phase} {run : ThreadRun} {caller : ThreadId}

/-- A slot that holds no thread has no registers. -/
theorem Inv.filter (inv : s.Inv) :
    (fun k => if s.user.run.proc.live k then s.spec.regs k else none) = s.spec.regs := by
  funext k
  split
  · rfl
  rename_i dead
  have gone := inv.free.registers_dead dead
  by_cases same : k = s.spec.caller
  · have own := inv.own
    rw [← same, gone] at own
    exact own.due_none.symm
  · rw [← inv.others k same, gone]

/-- Steps that change no registers. -/
theorem Inv.quiet (inv : s.Inv) (keeps : s.user.run.proc.Keeps run.proc)
    (loop : ∀ t, run.loop = some t → run.proc.currentThread = some t)
    (own : ∀ {actual due}, s.user.phase.Own actual due → phase.Own actual due)
    (entered : ∀ sepc cause, phase = .entered sepc cause → run.proc.loaded = s.spec.caller) :
    Inv ⟨⟨run, phase⟩, s.spec.caller, fun k => if run.proc.live k then s.spec.regs k else none⟩ where
  loop := loop
  free := keeps.free
  framed := keeps.framed inv.framed
  own := by
    change phase.Own (run.proc.registers s.spec.caller)
      (if run.proc.live s.spec.caller then s.spec.regs s.spec.caller else none)
    rw [keeps.registers]
    split
    · exact own inv.own
    · exact phase.own_none
  others := by
    intro k other
    rw [keeps.registers, inv.others k other]
  entered := entered

/-- Steps that change neither registers nor threads. -/
theorem Inv.same (inv : s.Inv)
    (own : ∀ {actual due}, s.user.phase.Own actual due → phase.Own actual due)
    (out : ∀ sepc cause, phase ≠ .entered sepc cause) :
    Inv ⟨⟨s.user.run, phase⟩, s.spec.caller,
      fun k => if s.user.run.proc.live k then s.spec.regs k else none⟩ :=
  inv.quiet inv.free.carries.keeps inv.loop own
    fun sepc cause same => absurd same (out sepc cause)

variable {regs : ThreadId → Option UserRegs}

/-- `setkilled`, or a `kill` by another process. -/
theorem Inv.setkilled (inv : Inv ⟨⟨run, phase⟩, caller, regs⟩) :
    Inv ⟨⟨{ run with proc := { run.proc with killed := true } }, phase⟩, caller,
      fun k => if run.proc.live k then regs k else none⟩ :=
  inv.quiet ⟨inv.free.carries.keeps.registers, inv.free, id⟩ inv.loop id inv.entered

/-- The process gives up the CPU. -/
theorem Inv.giveUp (inv : s.Inv) (resumed : s.user.run.giveUp.executing = some run)
    (own : ∀ {actual due}, s.user.phase.Own actual due → phase.Own actual due)
    (out : ∀ sepc cause, phase ≠ .entered sepc cause) :
    Inv ⟨⟨run, phase⟩, s.spec.caller,
      fun k => if run.proc.live k then s.spec.regs k else none⟩ := by
  obtain ⟨carried, loop⟩ := carries_giveUp s.user.run inv.free inv.loop resumed
  exact inv.quiet carried.keeps loop own fun sepc cause same => absurd same (out sepc cause)

/-- A call of `join_thread` or `exit_thread`. -/
theorem Inv.finishCall (inv : s.Inv) {ended : ThreadRun × Int}
    (leaves : ∀ p, call = .failed p ∨ call = .yields p → s.user.run.proc.Leaves p)
    (done : s.user.run.finishCall call = some ended)
    (own : ∀ {actual due}, s.user.phase.Own actual due → phase.Own actual due)
    (out : ∀ sepc cause, phase ≠ .entered sepc cause) :
    Inv ⟨⟨ended.1, phase⟩, s.spec.caller,
      fun k => if ended.1.proc.live k then s.spec.regs k else none⟩ := by
  obtain ⟨keeps, loop⟩ := finishCall_keeps inv.loop leaves done
  exact inv.quiet keeps loop own fun sepc cause same => absurd same (out sepc cause)

/-- Steps that store into the trapframe while the caller is loaded. -/
theorem Inv.stored (inv : s.Inv) (phase : Phase) (stored : s.user.run.store change = some run)
    (loaded : s.user.run.proc.loaded = caller)
    (others : ∀ k, k ≠ caller → s.user.run.proc.registers k = s.spec.regs k)
    (own : phase.Own ((s.user.run.proc.registers caller).map change) due) :
    Inv ⟨⟨run, phase⟩, caller, update s.spec.regs caller due⟩ := by
  obtain ⟨loop, cur, free, framed, sameLoaded, _, changed, kept⟩ := store_registers inv.free stored
  rw [loaded] at changed kept sameLoaded
  refine ⟨fun t looped => ?_, free, framed, ?_, fun k other => ?_, fun _ _ _ => sameLoaded⟩
  · rw [cur]
    exact inv.loop t (loop ▸ looped)
  · simp only [update_self, changed]
    exact own
  · change k ≠ caller at other
    simp only [update_of_ne other]
    rw [kept k other, others k other]

theorem Inv.refilter (inv : Inv ⟨⟨run, phase⟩, caller, regs⟩) :
    Inv ⟨⟨run, phase⟩, caller, fun k => if run.proc.live k then regs k else none⟩ := by
  have same := inv.filter
  rw [same]
  exact inv

/-- `create_thread`, called by the loaded thread. -/
theorem Inv.created (inv : s.Inv) {num : Int} {a0 a1 a2 : UInt64} {kalloc1 kalloc2 : Bool}
    {p : Proc} (value : UInt64) (phase : s.user.phase = .handler num a0 a1 a2)
    (loaded : s.user.run.proc.loaded = s.spec.caller)
    (live : ∀ t, s.user.run.proc.currentThread = some t → (s.user.run.proc.threads t).state ≠ .free)
    (created : s.user.run.proc.createThread a0 a1 a2 kalloc1 kalloc2 = some (tid, p)) :
    Inv ⟨⟨{ s.user.run with proc := p }, .handled value⟩, s.spec.caller, fun k =>
      if p.live k then
        if (k.val : Int) + 1 = tid then (s.spec.regs s.spec.caller).map UserRegs.startThread
        else s.spec.regs k
      else none⟩ := by
  have creates := Proc.createThread_creates inv.free live created
  have own := inv.own
  rw [phase] at own
  obtain ⟨callerRegs, arguments⟩ := own
  have startRegs : (s.user.run.proc.registers s.user.run.proc.loaded).map (.entry a0 a1 a2) =
      (s.spec.regs s.spec.caller).map UserRegs.startThread := by
    rw [loaded, callerRegs]
    cases due : s.spec.regs s.spec.caller with
    | none => rfl
    | some regs =>
      obtain ⟨rfl, rfl, rfl⟩ := arguments regs due
      rfl
  have new : ∀ k : ThreadId, k ≠ s.spec.caller → p.registers k =
      if p.live k then
        if (k.val : Int) + 1 = tid then (s.spec.regs s.spec.caller).map UserRegs.startThread
        else s.spec.regs k
      else none := by
    intro k other
    rw [creates.registers]
    by_cases fresh : (k.val : Int) + 1 = tid
    · rw [if_pos fresh, if_pos (creates.fresh k fresh).1, if_pos fresh, startRegs]
    · rw [if_neg fresh, if_neg fresh, inv.others k other]
  refine ⟨fun t looped => creates.cur t (inv.loop t looped), creates.free, ?_, ?_, new, nofun⟩
  · rw [creates.trapframe]
    exact inv.framed
  have alive : p.live s.spec.caller := .inl (loaded.symm.trans creates.loaded.symm)
  have old : ¬ ((s.spec.caller.val : Int) + 1 = tid) := fun fresh =>
    (creates.fresh _ fresh).2 loaded.symm
  change p.registers s.spec.caller = Option.map UserRegs.skipEcall (if _ then _ else _)
  rw [creates.registers, if_neg old, if_pos alive, if_pos alive, if_neg old]
  exact callerRegs

/-- `usertrap` up to its last `killed` test.  Its two stores are made while the
caller is loaded. -/
theorem Inv.usertrap (inv : s.Inv) {sepc : UInt64} {cause : Cause} {after : UserRun}
    (phase : s.user.phase = .entered sepc cause)
    (trapped : s.user.usertrap sepc cause = some after) :
    Inv ⟨after, s.spec.caller, fun k => if after.run.proc.live k then s.spec.regs k else none⟩ := by
  obtain ⟨run, stored, rest⟩ := Option.bind_eq_some_iff.mp trapped
  have loaded := inv.entered sepc cause phase
  have own := inv.own
  rw [phase] at own
  have callerDue : ∀ {actual due}, (Phase.entered sepc cause).Own actual due →
      Phase.syscall.Own (actual.map (UserRegs.skipEcall ∘ .saveEpc sepc)) due := by
    rintro _ _ rfl
    rw [Phase.Own, Option.map_map]
  have left : Inv ⟨⟨run, .leaving cause⟩, s.spec.caller, s.spec.regs⟩ := by
    have saved := inv.stored (.leaving cause) stored loaded inv.others own
    rwa [update_eq_self] at saved
  cases cause with
  | syscall =>
    simp only at rest
    split at rest
    · cases rest
    obtain ⟨_, storedAgain, rfl⟩ := Option.map_eq_some_iff.mp rest
    have both := inv.stored .syscall (store_store stored storedAgain) loaded
      inv.others (callerDue own)
    rw [update_eq_self] at both
    exact both.refilter
  | timer =>
    cases rest
    exact left.refilter
  | device =>
    cases rest
    exact left.refilter
  | unexpected =>
    simp only at rest
    split at rest
    · obtain ⟨_, done, rfl⟩ := Option.map_eq_some_iff.mp rest
      exact left.finishCall (fun p called => Proc.exitThread_leaves left.free called) done id
        nofun
    · cases rest
      exact left.setkilled

/-- Every step that meets the condition keeps the invariant. -/
theorem Inv.step (inv : s.Inv) {s' : WatchedRun} (safe : s.undisturbed event = true)
    (ran : s.step event = some s') : s'.Inv := by
  obtain ⟨_, userStepped, rfl⟩ := Option.map_eq_some_iff.mp ran
  obtain ⟨_, caller, regs⟩ := s
  cases userStep_cases userStepped with
  | @trap run _ trapRegs cause stored =>
    have all : ∀ k, k ≠ run.proc.loaded → run.proc.registers k = regs k := by
      intro k _
      by_cases same : k = caller
      · rw [same]
        exact inv.own
      · exact inv.others k same
    refine (inv.stored (.entered trapRegs.epc cause) stored rfl all ?_).refilter
    obtain ⟨frame, frameEq⟩ := Option.ne_none_iff_exists'.mp inv.framed
    have loadedRegs : run.proc.registers run.proc.loaded = some frame.toUserRegs := by
      rw [Proc.registers, Proc.frame_loaded, frameEq]
      rfl
    rw [loadedRegs]
    rfl
  | deadlineYield => cases safe
  | usertrap _ _ trapped => exact inv.usertrap rfl trapped
  | @dispatch run frame has =>
    have loaded : run.proc.loaded = caller := of_decide_eq_true safe
    have own : run.proc.registers caller = (regs caller).map UserRegs.skipEcall := inv.own
    refine Inv.refilter ⟨inv.loop, inv.free, inv.framed, ⟨own, fun due dueEq => ?_⟩,
      inv.others, nofun⟩
    change regs caller = some due at dueEq
    rw [← loaded, Proc.registers, Proc.frame_loaded, has, loaded, dueEq] at own
    have frameRegs : frame.toUserRegs = due.skipEcall := Option.some.inj own
    rw [frameRegs]
    exact ⟨rfl, rfl, rfl⟩
  | createThread _ _ _ _ _ tid _ new =>
    obtain ⟨loaded, taken⟩ := of_decide_eq_true safe
    have res := inv.created (.ofInt tid) rfl loaded taken new
    simp only [Isolated.observe, new]
    exact res
  | joinThread _ _ _ _ done =>
    exact inv.finishCall (fun p called => Proc.joinThread_leaves inv.free called) done
      (fun own => own.1) nofun
  | exitThread _ _ _ _ done =>
    exact inv.finishCall (fun p called => Proc.exitThread_leaves inv.free called) done
      (fun own => own.1) nofun
  | execFails =>
    exact inv.same (fun own => own.1) nofun
  | exec => cases safe
  | otherCall =>
    exact inv.same (fun own => own.1) nofun
  | giveUp phase blocks executing =>
    refine inv.giveUp executing id fun sepc cause same => ?_
    rw [show phase = .entered sepc cause from same] at blocks
    cases blocks
  | @storeResult run _ _ stored =>
    have loaded : run.proc.loaded = caller := of_decide_eq_true safe
    have own : run.proc.registers caller = (regs caller).map UserRegs.skipEcall := inv.own
    refine (inv.stored (.leaving .syscall) stored loaded inv.others ?_).refilter
    rw [own, Option.map_map]
    rfl
  | timerYield executing =>
    exact inv.giveUp executing id nofun
  | killedTest => exact inv.same id nofun
  | usertrapret => exact inv.same id nofun
  | kill phase => cases phase <;> exact inv.setkilled

end WatchedRun

/-- Thread register isolation.  In any run in which the kernel reads and writes the trapframe
for a system call only while the caller is loaded, no trap is taken after the deadline,
`create_thread` is not called with `current_thread` at a free slot, and no `exec` succeeds,
every thread outside the kernel has the registers it may rely on: those it trapped with, after
a system call with `epc` advanced and the result in `a0`, or those `create_thread` was asked
for. -/
theorem registers_isolated (run : ThreadRun)
    (loop : ∀ t, run.loop = some t → run.proc.currentThread = some t)
    (free : ∀ t, (run.proc.threads t).state = .free → (run.proc.threads t).trapframe = none)
    (framed : run.proc.trapframe ≠ none) (s : WatchedRun)
    (reached : Run WatchedRun.step (fun s event => s.undisturbed event = true)
      (WatchedRun.start run) s) :
    (∀ k, k ≠ s.spec.caller → s.user.run.proc.registers k = s.spec.regs k) ∧
      (s.user.phase = .user → s.user.run.proc.registers = s.spec.regs ∧
        s.spec.regs s.user.run.proc.loaded ≠ none) := by
  have started : (WatchedRun.start run).Inv := ⟨loop, free, framed, rfl, fun _ _ => rfl, nofun⟩
  have inv : s.Inv := reached.invariant started fun inv safe ran => inv.step safe ran
  refine ⟨inv.others, fun phase => ?_⟩
  have own := inv.own
  rw [phase] at own
  have all : s.user.run.proc.registers = s.spec.regs := by
    funext k
    by_cases same : k = s.spec.caller
    · rw [same]
      exact own
    · exact inv.others k same
  refine ⟨all, ?_⟩
  rw [← all, Proc.registers, Proc.frame_loaded]
  simpa using inv.framed

/-- `create_thread(64, 7, 4096)`, called at address 0. -/
def createCall : UserRegs :=
  { (default : UserRegs) with a0 := 64, a1 := 7, a2 := 4096, a7 := 24 }

/-- `join_thread(2)`, called at address 40. -/
def joinCall : UserRegs := { (default : UserRegs) with epc := 40, a0 := 2, a7 := 25 }

/-- `getpid()`, called at address 68. -/
def getpidCall : UserRegs := { (default : UserRegs) with epc := 68, a0 := 7, sp := 4096, a7 := 11 }

/-- The main thread creates a thread and returns from the call. -/
def createOne : List UserEvent :=
  [.trap createCall .syscall, .usertrap, .dispatch, .createThread true true, .storeResult,
    .killedTest, .usertrapret]

/-- The new thread runs up to a system call of its own, in which it is preempted after its
result has been stored. -/
theorem registers_isolated_timer :
    ∃ s, Run WatchedRun.step (fun s event => s.undisturbed event = true)
        (WatchedRun.start { proc := freshProc, loop := none }) s ∧
      s.user.phase = .user ∧ s.user.run.proc.registers = s.spec.regs ∧
      s.spec.regs 0 = some { createCall with epc := 20, a0 := 2 } ∧
      s.spec.regs 1 = some { getpidCall with epc := 72, a0 := 3 } := by
  obtain ⟨s, run, phase, main, second⟩ := exists_run_of_runChecked WatchedRun.step
    (fun s event => WatchedRun.undisturbed s event = true)
    (WatchedRun.start { proc := freshProc, loop := none })
    (createOne ++
      [.trap { createCall with epc := 20, a0 := 2 } .timer, .usertrap, .killedTest, .usertrapret,
        .trap { createCall with epc := 20, a0 := 2 } .timer, .usertrap, .killedTest, .usertrapret,
        .trap getpidCall .syscall, .usertrap, .dispatch, .otherCall 3, .storeResult, .giveUp,
        .killedTest, .usertrapret])
    (P := fun s => s.user.phase = .user ∧
      s.spec.regs 0 = some { createCall with epc := 20, a0 := 2 } ∧
      s.spec.regs 1 = some { getpidCall with epc := 72, a0 := 3 }) (by decide +kernel)
  exact ⟨s, run, phase, ((registers_isolated { proc := freshProc, loop := none }
    nofun (fun t _ => rfl) (by simp [freshProc]) s run).2
      phase).1, main, second⟩

/-- Three ways in which a thread loses its registers.  When the main thread joins the new one,
the result is stored into the new thread's `a0`.  When the first `create_thread` fails in its
second allocation, the next one puts the new thread into the caller's slot.  When a trap comes
after the deadline, the program counter is stored into the next thread's trapframe. -/
theorem registers_mixed_up :
    (∃ s, Run WatchedRun.step (fun _ _ => True)
        (WatchedRun.start { proc := freshProc, loop := none }) s ∧
      s.user.phase = .user ∧ s.user.run.proc.loaded = 1 ∧
      (s.spec.regs 1).map (·.a0) = some 7 ∧ (s.user.run.proc.registers 1).map (·.a0) = some 0) ∧
    (∃ s, Run WatchedRun.step (fun _ _ => True)
        (WatchedRun.start { proc := freshProc, loop := none }) s ∧
      s.user.phase = .handled 1 ∧ (s.spec.regs 0).map (·.epc) = some 64 ∧
      (s.user.run.proc.threads 0).trapframe.map (·.epc) = some 4) ∧
    ∃ s, Run WatchedRun.step (fun _ _ => True)
        (WatchedRun.start { proc := freshProc, loop := none }) s ∧
      s.user.phase = .syscall ∧ s.user.run.proc.loaded = 1 ∧
      (s.spec.regs 1).map (·.epc) = some 64 ∧
      (s.user.run.proc.registers 1).map (·.epc) = some 44 :=
  ⟨exists_run_of_runFrom _ _ (createOne ++
        [.trap joinCall .syscall, .usertrap, .dispatch, .joinThread, .storeResult, .killedTest,
          .usertrapret]) (by decide +kernel),
    exists_run_of_runFrom _ _ [.trap createCall .syscall, .usertrap, .dispatch,
      .createThread true false, .storeResult, .killedTest, .usertrapret, .trap createCall .syscall, .usertrap, .dispatch,
          .createThread true true, .giveUp] (by decide +kernel),
    exists_run_of_runFrom _ _ (createOne ++
        [.trap { createCall with epc := 20 } .timer, .usertrap, .killedTest, .usertrapret,
          .trap joinCall .syscall, .deadlineYield 40 .syscall, .usertrap]) (by decide +kernel)⟩

end CustomXv6

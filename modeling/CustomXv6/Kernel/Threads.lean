/-
Module: CustomXv6.Kernel.Threads
Purpose: The thread calls of kernel/proc.c and the switches between threads in scheduler().
Trusted boundary: human-reviewed spec
Main exports: ThreadRun.step, threadTable_wellFormed, joined_threads_have_targets
-/
import CustomXv6.Kernel.Proc
import CustomXv6.Lib.Transition
import Mathlib.Data.List.FinRange

namespace CustomXv6

open Transition
open Function

/-!
A process with threads has one `p->trapframe`, one kernel stack and one `p->context`.  The
scheduler copies the saved trapframe of a thread into `p->trapframe` before `swtch`, and back
when control returns.  The functions below are the pieces of that loop; they return `none` when
the code would copy through a null trapframe pointer.
-/

namespace Proc

/-- `*(t->trapframe) = *(p->trapframe)`. -/
def saveTo (p : Proc) (t : ThreadId) : Option Proc :=
  match (p.threads t).trapframe, p.trapframe with
  | some _, some frame => some (p.setThread t { p.threads t with trapframe := some frame })
  | _, _ => none

/-- The save at the start of a dispatch, for the thread that ran last. -/
def saveCurrent (p : Proc) : Option Proc :=
  match p.currentThread with
  | none => some p
  | some t => if (p.threads t).state = .free then some p else p.saveTo t

/-- The next slot at or after `start` that the thread loop stops at. -/
def nextRunnable (p : Proc) (start : Nat) : Option ThreadId :=
  (List.finRange maxThread).find? fun t => start ≤ t.val ∧ (p.threads t).state = .runnable

/-- What the thread loop does for a runnable thread before `swtch`. -/
def loadThread (p : Proc) (t : ThreadId) : Option Proc :=
  match (p.threads t).trapframe, p.trapframe with
  | some frame, some _ =>
    some
      { p.setThread t { p.threads t with state := .running } with
        trapframe := some frame
        currentThread := some t }
  | _, _ => none

/-- What the thread loop does for the thread it ran, after `swtch`. -/
def leaveThread (p : Proc) (t : ThreadId) : Option Proc :=
  let left :=
    if (p.threads t).state = .running then
      p.setThread t { p.threads t with state := .runnable }
    else p
  if (left.threads t).state = .free then some left else left.saveTo t

/-- The thread loop from slot `start` up to its next `swtch` (`some t`) or to
its end (`none`). -/
def threadLoop (p : Proc) (start : Nat) : Option (Proc × Option ThreadId) :=
  match p.nextRunnable start with
  | none => some (p, none)
  | some t => (p.loadThread t).map fun loaded => (loaded, some t)

/-- The scheduler's branch for a process with threads, up to the first
`swtch`. -/
def enterThreads (p : Proc) : Option (Proc × Option ThreadId) :=
  p.saveCurrent.bind fun saved => saved.threadLoop 0

/-- The scheduler's branch for threads, from the return of the `swtch` to `t` to the next one. -/
def afterSwtch (p : Proc) (t : ThreadId) : Option (Proc × Option ThreadId) :=
  (p.leaveThread t).bind fun left => left.threadLoop (t.val + 1)

/-! ### The system calls -/

/-- First half of `create_thread`: the calling code becomes thread 1, in slot
0. -/
def makeMain (p : Proc) : Option Proc :=
  p.trapframe.map fun frame =>
    { p.setThread 0 { state := .runnable, trapframe := some frame, id := 1, join := 0 } with
      currentThread := some 0 }

/-- The slot search of `create_thread`. -/
def firstFree (p : Proc) : Option ThreadId :=
  (List.finRange maxThread).find? fun t => (p.threads t).state = .free

/-- The stores of `create_thread` into the slot it found. -/
def newThread (p : Proc) (t : ThreadId) (startRoutine arg pstack : UInt64) : Option Proc :=
  p.trapframe.map fun frame =>
    p.setThread t
      { p.threads t with
        trapframe := some { frame with epc := startRoutine, sp := pstack, a0 := arg, ra := -1 }
        id := t.val + 1
        state := .runnable }

/-- Second half of `create_thread`.  `kalloc` says whether the allocation of
the new trapframe succeeds, `flag` whether this call has just made the main
thread. -/
def createSecond (p : Proc) (startRoutine arg pstack : UInt64) (kalloc flag : Bool) :
    Option (Int × Proc) :=
  match p.firstFree with
  | none => some (-1, p)
  | some t =>
    if kalloc then
      (p.newThread t startRoutine arg pstack).map fun new => (t.val + 1, new)
    else
      let failed := p.setThread t { p.threads t with trapframe := none }
      match flag, failed.currentThread with
      | true, some main => some (-1, failed.setThread main (freethread (failed.threads main)))
      | _, _ => some (-1, failed)

/-- `create_thread`, with the outcomes of its two calls of `kalloc`. -/
def createThread (p : Proc) (startRoutine arg pstack : UInt64) (kalloc1 kalloc2 : Bool) :
    Option (Int × Proc) :=
  match p.currentThread with
  | none =>
    if kalloc1 then
      p.makeMain.bind fun main => main.createSecond startRoutine arg pstack kalloc2 true
    else some (-1, p.setThread 0 { p.threads 0 with trapframe := none })
  | some _ => p.createSecond startRoutine arg pstack kalloc2 false

end Proc

/-- How `join_thread` and `exit_thread` end: with a null pointer dereference,
with -1, or by calling `yield` on the updated process (and then returning 0). -/
inductive ThreadCall where
  | fault
  | failed (p : Proc)
  | yields (p : Proc)

namespace Proc

/-- The search of `join_thread`. -/
def findThread (p : Proc) (tid : Int) : Option ThreadId :=
  (List.finRange maxThread).find? fun t =>
    (p.threads t).id = tid ∧ (p.threads t).state ≠ .free

/-- `join_thread`, up to its call of `yield`. -/
def joinThread (p : Proc) (tid : Int) : ThreadCall :=
  match p.findThread tid with
  | none => .failed p
  | some _ =>
    match p.currentThread with
    | none => .fault
    | some caller =>
      .yields (p.setThread caller { p.threads caller with join := tid, state := .joined })

/-- What the loop of `exit_t` does to a slot that waits for `tid`. -/
def wakeJoiner (tid : Int) (thread : Thread) : Thread :=
  if thread.join = tid then { thread with state := .runnable, join := 0 } else thread

/-- The slot that the loop of `exit_t` ends up with as its target: the last
one with that id. -/
def lastWithId (p : Proc) (tid : Int) : Option ThreadId :=
  (List.finRange maxThread).reverse.find? fun t => (p.threads t).id = tid

/-- The stores of the loop of `exit_t`. -/
def wakeJoiners (p : Proc) (tid : Int) : Proc :=
  { p with threads := fun t => wakeJoiner tid (p.threads t) }

/-- `exit_t`, up to its call of `yield`. -/
def exitT (p : Proc) (tid : Int) : ThreadCall :=
  let woken := p.wakeJoiners tid
  match woken.lastWithId tid with
  | none => .failed woken
  | some target =>
    if (woken.threads target).state = .free then .failed woken
    else .yields (woken.setThread target (freethread (woken.threads target)))

/-- `exit_thread`, up to the call of `yield` in `exit_t`. -/
def exitThread (p : Proc) (tid : Int) : ThreadCall :=
  if tid = -1 then
    match p.currentThread with
    | none => .fault
    | some t => p.exitT (p.threads t).id
  else p.exitT tid

end Proc

/-! ### One process under the scheduler -/

/-- A process that is being executed, with the scheduler's loop variable `t`;
`none` is the branch of the scheduler for a process without threads. -/
structure ThreadRun where
  proc : Proc
  loop : Option ThreadId

/-- What becomes of a process: it runs again, it is never switched to again
because no thread is runnable, the scheduler copies through a null trapframe
pointer, or the process itself follows a null pointer. -/
inductive Resumed where
  | running (run : ThreadRun)
  | stuck (p : Proc)
  | nullCopy
  | fault

/-- A later dispatch of the process, by whichever CPU. -/
def Proc.redispatch (p : Proc) : Resumed :=
  match p.currentThread with
  | none => .running { proc := p, loop := none }
  | some _ =>
    match p.enterThreads with
    | none => .nullCopy
    | some (entered, none) => .stuck entered
    | some (entered, some t) => .running { proc := entered, loop := some t }

namespace ThreadRun

/-- The process gives up the CPU (in `yield` or `sleep`) and is resumed: by the
same pass of the scheduler, which goes on to a later thread, or by a later
dispatch. -/
def giveUp (run : ThreadRun) : Resumed :=
  match run.loop with
  | none => run.proc.redispatch
  | some t =>
    match run.proc.afterSwtch t with
    | none => .nullCopy
    | some (left, none) => left.redispatch
    | some (entered, some next) => .running { proc := entered, loop := some next }

def afterCall (run : ThreadRun) : ThreadCall → Resumed
  | .fault => .fault
  | .failed p => .running { run with proc := p }
  | .yields p => giveUp { run with proc := p }

end ThreadRun

/-- What the executing thread of a process can do to the thread table.
`giveUp` is any blocking point: a `sleep` of a system call or a `yield` for a
timer interrupt. -/
inductive ThreadEvent where
  | createThread (startRoutine arg pstack : UInt64) (kalloc1 kalloc2 : Bool)
  | joinThread (tid : Int)
  | exitThread (tid : Int)
  | giveUp
deriving DecidableEq, Repr

namespace ThreadRun

def step (run : ThreadRun) : ThreadEvent → Resumed
  | .createThread startRoutine arg pstack kalloc1 kalloc2 =>
    match run.proc.createThread startRoutine arg pstack kalloc1 kalloc2 with
    | none => .fault
    | some (_, p) => .running { run with proc := p }
  | .joinThread tid => run.afterCall (run.proc.joinThread tid)
  | .exitThread tid => run.afterCall (run.proc.exitThread tid)
  | .giveUp => run.giveUp

/-- The next state in which the process executes, if there is one. -/
def next (run : ThreadRun) (event : ThreadEvent) : Option ThreadRun :=
  match run.step event with
  | .running after => some after
  | _ => none

end ThreadRun

/-! ### Well-formed thread tables -/

@[simp] theorem Proc.setThread_threads (p : Proc) (t : ThreadId) (thread : Thread) :
    (p.setThread t thread).threads = update p.threads t thread := rfl

@[simp] theorem Proc.setThread_trapframe (p : Proc) (t : ThreadId) (thread : Thread) :
    (p.setThread t thread).trapframe = p.trapframe := rfl

@[simp] theorem Proc.setThread_currentThread (p : Proc) (t : ThreadId) (thread : Thread) :
    (p.setThread t thread).currentThread = p.currentThread := rfl

/-- What a slot of `p->threads` has to satisfy. -/
structure ThreadSlotOk (t : ThreadId) (thread : Thread) : Prop where
  live : thread.state ≠ .free → thread.trapframe ≠ none ∧ thread.id = t.val + 1
  free : thread.state = .free → thread.trapframe = none ∧ thread.id = 0 ∧ thread.join = 0

/-- Every slot is well formed and the process has its trapframe page. -/
structure Proc.TableOk (p : Proc) : Prop where
  slots : ∀ t, ThreadSlotOk t (p.threads t)
  frame : p.trapframe ≠ none

/-- No thread has been created, or all have been freed again. -/
def Proc.AllFree (p : Proc) : Prop := ∀ t, (p.threads t).state = .free

/-- How `p->current_thread` relates to the table while the process executes: a
process without threads has a free table, and the current thread is live,
except after a first `create_thread` that failed in its second allocation and
left `current_thread` at the slot it freed. -/
def Proc.CurrentOk (p : Proc) : Prop :=
  match p.currentThread with
  | none => p.AllFree
  | some t => (p.threads t).state ≠ .free ∨ (t = 0 ∧ p.AllFree)

structure ThreadRun.Ok (run : ThreadRun) : Prop where
  table : run.proc.TableOk
  cur : run.proc.CurrentOk
  loop : ∀ t, run.loop = some t → run.proc.currentThread = some t

/-- The invariant for every way to continue; no copy goes through a null pointer. -/
def Resumed.Ok : Resumed → Prop
  | .running run => run.Ok
  | .stuck p => p.TableOk
  | .nullCopy => False
  | .fault => True

theorem threadSlotOk_freethread (t : ThreadId) (thread : Thread) :
    ThreadSlotOk t (freethread thread) :=
  ⟨fun live => absurd rfl live, fun _ => ⟨rfl, rfl, rfl⟩⟩

variable {thread : Thread} {start : Nat} {run : ThreadRun} {event : ThreadEvent} {p after : Proc}
  {t bad : ThreadId} {tid : Int}

/-- Changing the state of a live slot to another live state, or its join
value, keeps the slot well formed. -/
theorem ThreadSlotOk.relabel {thread' : Thread} (ok : ThreadSlotOk t thread)
    (wasLive : thread.state ≠ .free) (isLive : thread'.state ≠ .free)
    (sameId : thread'.id = thread.id) (framed : thread'.trapframe ≠ none) :
    ThreadSlotOk t thread' := by
  refine ⟨fun _ => ⟨framed, ?_⟩, fun free => absurd free isLive⟩
  rw [sameId]
  exact (ok.live wasLive).2

namespace Proc.TableOk

variable (ok : p.TableOk)
include ok

theorem setThread (slotOk : ThreadSlotOk t thread) : (p.setThread t thread).TableOk := by
  refine ⟨fun t' => ?_, ok.frame⟩
  rw [setThread_threads]
  by_cases same : t' = t
  · subst same
    rwa [update_self]
  · rw [update_of_ne same]
    exact ok.slots t'

/-- A save into a live slot succeeds. -/
theorem saveTo_eq (live : (p.threads t).state ≠ .free) :
    p.saveTo t = some (p.setThread t { p.threads t with trapframe := p.trapframe }) := by
  obtain ⟨_, targetEq⟩ := Option.ne_none_iff_exists'.mp ((ok.slots t).live live).1
  obtain ⟨_, frameEq⟩ := Option.ne_none_iff_exists'.mp ok.frame
  rw [saveTo, targetEq, frameEq]

theorem saveTo (live : (p.threads t).state ≠ .free) :
    (p.setThread t { p.threads t with trapframe := p.trapframe }).TableOk :=
  ok.setThread ((ok.slots t).relabel live live rfl ok.frame)

theorem saveCurrent : ∃ saved, p.saveCurrent = some saved ∧ saved.TableOk := by
  rw [Proc.saveCurrent]
  split
  · exact ⟨p, rfl, ok⟩
  rename_i t _
  split
  · exact ⟨p, rfl, ok⟩
  · rename_i live
    exact ⟨_, ok.saveTo_eq live, ok.saveTo live⟩

theorem leaveThread (t : ThreadId) : ∃ left, p.leaveThread t = some left ∧ left.TableOk := by
  rw [Proc.leaveThread]
  split
  · rename_i running
    have live : (p.threads t).state ≠ .free := by simp [running]
    have relabelled : (p.setThread t { p.threads t with state := .runnable }).TableOk :=
      ok.setThread ((ok.slots t).relabel live (by simp) rfl ((ok.slots t).live live).1)
    have stillLive : ((p.setThread t { p.threads t with state := .runnable }).threads t).state ≠
        .free := by
      simp
    rw [if_neg stillLive]
    exact ⟨_, relabelled.saveTo_eq stillLive, relabelled.saveTo stillLive⟩
  · split
    · exact ⟨p, rfl, ok⟩
    · rename_i live
      exact ⟨_, ok.saveTo_eq live, ok.saveTo live⟩

/-- The thread loop finds a trapframe in every slot it stops at and makes its thread current. -/
theorem threadLoop (start : Nat) :
    ∃ after stop, p.threadLoop start = some (after, stop) ∧ after.TableOk ∧
      ∀ t, stop = some t → after.currentThread = some t ∧ (after.threads t).state = .running := by
  rw [Proc.threadLoop]
  split
  · exact ⟨p, none, rfl, ok, nofun⟩
  rename_i t found
  have runnable : (p.threads t).state = .runnable := by
    have test := List.find?_some found
    simp only [decide_eq_true_eq] at test
    exact test.2
  have live : (p.threads t).state ≠ .free := by simp [runnable]
  obtain ⟨_, frameEq⟩ := Option.ne_none_iff_exists'.mp ((ok.slots t).live live).1
  obtain ⟨_, oldEq⟩ := Option.ne_none_iff_exists'.mp ok.frame
  have relabelled : (p.setThread t { p.threads t with state := .running }).TableOk :=
    ok.setThread ((ok.slots t).relabel live (by simp) rfl ((ok.slots t).live live).1)
  simp only [loadThread, frameEq, oldEq, Option.map_some]
  refine ⟨_, some t, rfl, ⟨?_, by simp⟩, ?_⟩
  · simpa [frameEq] using relabelled.slots
  · intro _ same
    cases same
    simp

theorem enterThreads :
    ∃ after stop, p.enterThreads = some (after, stop) ∧ after.TableOk ∧
      ∀ t, stop = some t → after.currentThread = some t ∧ (after.threads t).state = .running := by
  obtain ⟨_, savedEq, savedOk⟩ := ok.saveCurrent
  rw [Proc.enterThreads, savedEq]
  exact savedOk.threadLoop 0

theorem afterSwtch (t : ThreadId) :
    ∃ after stop, p.afterSwtch t = some (after, stop) ∧ after.TableOk ∧
      ∀ t, stop = some t → after.currentThread = some t ∧ (after.threads t).state = .running := by
  obtain ⟨_, leftEq, leftOk⟩ := ok.leaveThread t
  rw [Proc.afterSwtch, leftEq]
  exact leftOk.threadLoop (t.val + 1)

end Proc.TableOk

/-- A process that has just been switched to satisfies the invariant. -/
private theorem switchedTo_ok (table : p.TableOk)
    (cur : p.currentThread = some t) (running : (p.threads t).state = .running) :
    ThreadRun.Ok { proc := p, loop := some t } := by
  refine ⟨table, ?_, fun t' same => ?_⟩
  · rw [Proc.CurrentOk, cur]
    exact Or.inl (by simp [running])
  · cases same
    exact cur

theorem redispatch_ok (table : p.TableOk)
    (single : p.currentThread = none → p.AllFree) : p.redispatch.Ok := by
  cases currentEq : p.currentThread with
  | none =>
    simp only [Proc.redispatch, currentEq]
    refine ⟨table, ?_, nofun⟩
    simpa [Proc.CurrentOk, currentEq] using single currentEq
  | some =>
    simp only [Proc.redispatch, currentEq]
    obtain ⟨_, stop, entered, afterOk, switched⟩ := table.enterThreads
    rw [entered]
    cases stop with
    | none => exact afterOk
    | some t => exact switchedTo_ok afterOk (switched t rfl).1 (switched t rfl).2

theorem leaveThread_currentThread {left : Proc}
    (left_eq : p.leaveThread t = some left) : left.currentThread = p.currentThread := by
  simp only [Proc.leaveThread, Proc.saveTo] at left_eq
  grind [Proc.setThread]

theorem threadLoop_none (ended : p.threadLoop start = some (after, none)) : after = p := by
  simp only [Proc.threadLoop] at ended
  split at ended
  · simpa using ended.symm
  · simp at ended

/-! ### The states of the threads in the thread loop -/

namespace Proc

variable {x y : Proc}

theorem saveTo_states (saved : x.saveTo t = some y) :
    y.currentThread = x.currentThread ∧ ∀ t', (y.threads t').state = (x.threads t').state := by
  rw [saveTo] at saved
  split at saved
  · cases saved
    refine ⟨rfl, fun t' => ?_⟩
    by_cases same : t' = t
    · subst same
      simp
    · simp [update_of_ne same]
  · cases saved

theorem saveCurrent_states (saved : x.saveCurrent = some y) :
    y.currentThread = x.currentThread ∧ ∀ t', (y.threads t').state = (x.threads t').state := by
  rw [saveCurrent] at saved
  split at saved
  · cases saved
    exact ⟨rfl, fun _ => rfl⟩
  split at saved
  · cases saved
    exact ⟨rfl, fun _ => rfl⟩
  · exact saveTo_states saved

/-- The loop switches to a runnable thread, which is then the current one. -/
theorem threadLoop_states (looped : x.threadLoop start = some (y, some t)) :
    y.currentThread = some t ∧ (x.threads t).state = .runnable ∧ (y.threads t).state = .running ∧
      ∀ t', t' ≠ t → (y.threads t').state = (x.threads t').state := by
  rw [threadLoop] at looped
  split at looped
  · cases looped
  rename_i found
  obtain ⟨_, loadedEq, same⟩ := Option.map_eq_some_iff.mp looped
  cases same
  have runnable := List.find?_some found
  rw [loadThread] at loadedEq
  split at loadedEq
  · cases loadedEq
    refine ⟨rfl, by simpa using (by simpa using runnable : _ ∧ _).2, by simp, fun t' other => ?_⟩
    simp [update_of_ne other]
  · cases loadedEq

/-- A dispatch that finds no thread changes the state of none. -/
theorem enterThreads_states (entered : x.enterThreads = some (y, none)) :
    y.currentThread = x.currentThread ∧ ∀ t', (y.threads t').state = (x.threads t').state := by
  obtain ⟨_, savedEq, looped⟩ := Option.bind_eq_some_iff.mp entered
  rw [threadLoop_none looped]
  exact saveCurrent_states savedEq

/-- A thread that is left while running is runnable again, the others keep
their states. -/
theorem leaveThread_states (left : x.leaveThread t = some y) :
    y.currentThread = x.currentThread ∧
      (∀ t', t' ≠ t → (y.threads t').state = (x.threads t').state) ∧
      ((x.threads t).state = .running → (y.threads t).state = .runnable) ∧
      ((x.threads t).state ≠ .running → (y.threads t).state = (x.threads t).state) := by
  rw [leaveThread] at left
  split at left
  · rename_i running
    have saved : y.currentThread = x.currentThread ∧ ∀ t', (y.threads t').state =
        ((x.setThread t { x.threads t with state := .runnable }).threads t').state := by
      split at left
      · cases left
        exact ⟨rfl, fun _ => rfl⟩
      · exact saveTo_states left
    refine ⟨saved.1, fun t' other => ?_, fun _ => ?_, fun still => absurd running still⟩
    · rw [saved.2, setThread_threads, update_of_ne other]
    · rw [saved.2, setThread_threads, update_self]
  rename_i notRunning
  have saved : y.currentThread = x.currentThread ∧
      ∀ t', (y.threads t').state = (x.threads t').state := by
    split at left
    · cases left
      exact ⟨rfl, fun _ => rfl⟩
    · exact saveTo_states left
  exact ⟨saved.1, fun t' _ => saved.2 t', fun running => absurd running notRunning,
    fun _ => saved.2 t⟩

/-- When the thread loop ends, no runnable thread has been lost, and the thread
that was left running is runnable. -/
theorem afterSwtch_states (left : x.afterSwtch t = some (y, none)) :
    y.currentThread = x.currentThread ∧
      (∀ t', (y.threads t').state = (x.threads t').state ∨
        (x.threads t').state = .running ∧ (y.threads t').state = .runnable) ∧
      ((x.threads t).state = .running → (y.threads t).state = .runnable) := by
  obtain ⟨_, leftEq, looped⟩ := Option.bind_eq_some_iff.mp left
  rw [threadLoop_none looped]
  obtain ⟨cur, others, running, kept⟩ := leaveThread_states leftEq
  refine ⟨cur, fun t' => ?_, running⟩
  by_cases same : t' = t
  · subst same
    by_cases wasRunning : (x.threads t').state = .running
    · exact .inr ⟨wasRunning, running wasRunning⟩
    · exact .inl (kept wasRunning)
  · exact .inl (others t' same)

end Proc

variable {arg pstack startRoutine : UInt64}

/-- Giving up the CPU keeps the table well formed, whether the process runs
again or not. -/
theorem giveUp_ok (table : run.proc.TableOk)
    (single : run.proc.currentThread = none → run.proc.AllFree)
    (loop : ∀ t, run.loop = some t → run.proc.currentThread = some t) : run.giveUp.Ok := by
  cases loopEq : run.loop with
  | none =>
    simp only [ThreadRun.giveUp, loopEq]
    exact redispatch_ok table single
  | some t =>
    simp only [ThreadRun.giveUp, loopEq]
    obtain ⟨_, stop, entered, afterOk, switched⟩ := table.afterSwtch t
    rw [entered]
    cases stop with
    | none =>
      apply redispatch_ok afterOk
      intro none
      -- a process inside the thread loop has a current thread
      obtain ⟨_, leftEq, ended⟩ := Option.bind_eq_some_iff.mp entered
      rw [threadLoop_none ended, leaveThread_currentThread leftEq, loop t loopEq] at none
      cases none
    | some next => exact switchedTo_ok afterOk (switched next rfl).1 (switched next rfl).2

/-- The argument that `exit_thread(tid)` passes on to `exit_t`. -/
def Proc.exitArgument (p : Proc) (tid : Int) : Option Int :=
  if tid = -1 then p.currentThread.map fun t => (p.threads t).id else some tid

/-- When `exit_t` may be given `tid`.  It makes every slot whose join value
equals its argument runnable before it looks for the thread, and 0 is the join
value of the free slots: one free slot is freed again as the target, a second
one is left runnable. -/
def Proc.ExitSafe (p : Proc) (tid : Int) : Prop :=
  tid = 0 → ∀ t t', (p.threads t).state = .free → (p.threads t').state = .free → t = t'

/-- The condition on an event: if 0 reaches `exit_t`, at most one slot is
free. -/
def ThreadEventSafe (run : ThreadRun) : ThreadEvent → Prop
  | .exitThread tid => ∀ argument, run.proc.exitArgument tid = some argument →
      run.proc.ExitSafe argument
  | _ => True

/-- Clearing a null trapframe pointer changes nothing. -/
theorem setThread_clear (null : (p.threads t).trapframe = none) :
    p.setThread t { p.threads t with trapframe := none } = p := by
  have cleared : { p.threads t with trapframe := none } = p.threads t := by
    rw [← null]
  rw [cleared, Proc.setThread, update_eq_self]

theorem firstFree_state (found : p.firstFree = some t) : (p.threads t).state = .free := by
  simpa using List.find?_some found

/-- In a free table `create_thread` takes the first slot. -/
theorem firstFree_allFree (allFree : p.AllFree) : p.firstFree = some 0 := by
  rw [Proc.firstFree, List.finRange_succ, List.find?_cons_of_pos]
  simpa using allFree 0

section

variable (table : p.TableOk)
include table

private theorem newThread_ok {new : Proc}
    (stored : p.newThread t startRoutine arg pstack = some new) :
    new.TableOk ∧ new.currentThread = p.currentThread ∧
      (new.threads t).state ≠ .free ∧
      ∀ t', (p.threads t').state ≠ .free → (new.threads t').state ≠ .free := by
  obtain ⟨_, _, rfl⟩ := Option.map_eq_some_iff.mp stored
  refine ⟨table.setThread ⟨fun _ => ⟨by simp, rfl⟩, nofun⟩, rfl, by simp, ?_⟩
  intro t' _
  rw [Proc.setThread_threads]
  by_cases same : t' = t
  · subst same
    simp
  · rwa [update_of_ne same]

theorem createSecond_ok {kalloc flag : Bool} (cur : p.CurrentOk) (threaded : p.currentThread ≠ none)
    (flagged : flag = true → p.currentThread = some 0 ∧ ∀ t, t ≠ 0 → (p.threads t).state = .free)
    (new : p.createSecond startRoutine arg pstack kalloc flag = some (tid, after)) :
    after.TableOk ∧ after.CurrentOk ∧ after.currentThread = p.currentThread := by
  obtain ⟨caller, callerEq⟩ := Option.ne_none_iff_exists'.mp threaded
  rw [Proc.createSecond] at new
  cases found : p.firstFree with
  | none =>
    simp only [found, Option.some.injEq, Prod.mk.injEq] at new
    rw [← new.2]
    exact ⟨table, cur, rfl⟩
  | some t =>
    have free := firstFree_state found
    simp only [found, setThread_clear ((table.slots t).free free).1, callerEq] at new
    cases kalloc with
    | true =>
      obtain ⟨_, storedEq, pairEq⟩ := Option.map_eq_some_iff.mp new
      cases pairEq
      obtain ⟨storedOk, sameCurrent, live, kept⟩ := newThread_ok table storedEq
      refine ⟨storedOk, ?_, sameCurrent⟩
      rw [Proc.CurrentOk, sameCurrent, callerEq]
      simp only [Proc.CurrentOk, callerEq] at cur
      rcases cur with callerLive | ⟨callerZero, allFree⟩
      · exact Or.inl (kept caller callerLive)
      -- the freed main slot is reused for the new thread
      rw [firstFree_allFree allFree] at found
      cases found
      rw [callerZero]
      exact Or.inl live
    | false =>
      cases flag with
      | false =>
        simp only [Bool.false_eq_true, if_false, Option.some.injEq, Prod.mk.injEq] at new
        rw [← new.2]
        exact ⟨table, cur, rfl⟩
      | true =>
        obtain ⟨mainEq, othersFree⟩ := flagged rfl
        rw [callerEq] at mainEq
        cases mainEq
        simp only [Bool.false_eq_true, if_false, Option.some.injEq, Prod.mk.injEq] at new
        rw [← new.2]
        refine ⟨table.setThread (threadSlotOk_freethread 0 _), ?_, rfl⟩
        rw [Proc.CurrentOk, Proc.setThread_currentThread, callerEq]
        refine Or.inr ⟨rfl, fun t' => ?_⟩
        by_cases same : t' = 0
        · subst same
          simp [freethread]
        · rw [Proc.setThread_threads, update_of_ne same]
          exact othersFree t' same

private theorem makeMain_ok {main : Proc} (allFree : p.AllFree) (made : p.makeMain = some main) :
    main.TableOk ∧ main.currentThread = some 0 ∧ (main.threads 0).state = .runnable ∧
      ∀ t, t ≠ 0 → (main.threads t).state = .free := by
  obtain ⟨frame, _, rfl⟩ := Option.map_eq_some_iff.mp made
  have slotOk : ThreadSlotOk 0
      { state := .runnable, trapframe := some frame, id := 1, join := 0 } :=
    ⟨fun _ => ⟨by simp, rfl⟩, nofun⟩
  refine ⟨⟨(table.setThread slotOk).slots, table.frame⟩, rfl, by simp, fun t notMain => ?_⟩
  simpa [update_of_ne notMain] using allFree t

theorem createThread_ok {kalloc1 kalloc2 : Bool} (cur : p.CurrentOk)
    (new : p.createThread startRoutine arg pstack kalloc1 kalloc2 = some (tid, after)) :
    after.TableOk ∧ after.CurrentOk ∧
      ∀ t, p.currentThread = some t → after.currentThread = some t := by
  rw [Proc.createThread] at new
  cases callerEq : p.currentThread with
  | some =>
    simp only [callerEq] at new
    obtain ⟨afterOk, afterCurrent, same⟩ :=
      createSecond_ok table cur (by simp [callerEq]) (by simp) new
    exact ⟨afterOk, afterCurrent, fun t eq => by rw [same, callerEq, eq]⟩
  | none =>
    have allFree : p.AllFree := by simpa [Proc.CurrentOk, callerEq] using cur
    simp only [callerEq] at new
    suffices both : after.TableOk ∧ after.CurrentOk from
      ⟨both.1, both.2, nofun⟩
    cases kalloc1 with
    | false =>
      simp only [Bool.false_eq_true, if_false, Option.some.injEq, Prod.mk.injEq,
        setThread_clear ((table.slots 0).free (allFree 0)).1] at new
      rw [← new.2]
      exact ⟨table, cur⟩
    | true =>
      obtain ⟨main, mainEq, second⟩ := Option.bind_eq_some_iff.mp new
      obtain ⟨mainOk, mainCurrent, mainRunnable, othersFree⟩ := makeMain_ok table allFree mainEq
      have mainCurrentOk : main.CurrentOk := by
        rw [Proc.CurrentOk, mainCurrent]
        exact Or.inl (by simp [mainRunnable])
      obtain ⟨afterOk, afterCurrent, _⟩ :=
        createSecond_ok mainOk mainCurrentOk (by simp [mainCurrent])
          (fun _ => ⟨mainCurrent, othersFree⟩) second
      exact ⟨afterOk, afterCurrent⟩

theorem joinThread_ok (cur : p.CurrentOk) (joined : p.joinThread tid = .yields after) :
    after.TableOk ∧ after.currentThread ≠ none ∧ after.currentThread = p.currentThread := by
  rw [Proc.joinThread] at joined
  cases found : p.findThread tid with
  | none => simp [found] at joined
  | some target =>
    cases callerEq : p.currentThread with
    | none => simp [found, callerEq] at joined
    | some caller =>
      simp only [found, callerEq, ThreadCall.yields.injEq] at joined
      subst joined
      have targetLive : (p.threads target).state ≠ .free := by
        have test := List.find?_some found
        simp only [decide_eq_true_eq] at test
        exact test.2
      have callerLive : (p.threads caller).state ≠ .free := by
        simp only [Proc.CurrentOk, callerEq] at cur
        rcases cur with live | ⟨_, allFree⟩
        · exact live
        · exact absurd (allFree target) targetLive
      refine ⟨table.setThread ((table.slots caller).relabel callerLive (by simp) rfl
        ((table.slots caller).live callerLive).1), by simp [callerEq], by simp [callerEq]⟩

end

@[simp] theorem wakeJoiner_id (thread : Thread) : (Proc.wakeJoiner tid thread).id = thread.id := by
  rw [Proc.wakeJoiner]
  split <;> rfl

@[simp] theorem wakeJoiner_trapframe (thread : Thread) :
    (Proc.wakeJoiner tid thread).trapframe = thread.trapframe := by
  rw [Proc.wakeJoiner]
  split <;> rfl

/-- Waking keeps a live slot well formed. -/
private theorem wakeJoiner_live (ok : ThreadSlotOk t (p.threads t))
    (live : (p.threads t).state ≠ .free) :
    (Proc.wakeJoiner tid (p.threads t)).state ≠ .free ∧
      ThreadSlotOk t (Proc.wakeJoiner tid (p.threads t)) := by
  have stillLive : (Proc.wakeJoiner tid (p.threads t)).state ≠ .free := by
    rw [Proc.wakeJoiner]
    split
    · simp
    · exact live
  exact ⟨stillLive, ok.relabel live stillLive (wakeJoiner_id _) (by simpa using (ok.live live).1)⟩

/-- Unless its argument is 0, `exit_t` does not touch a free slot. -/
private theorem wakeJoiner_free (ok : ThreadSlotOk t (p.threads t))
    (ne0 : tid ≠ 0) (free : (p.threads t).state = .free) :
    Proc.wakeJoiner tid (p.threads t) = p.threads t := by
  have notWaiting : (p.threads t).join ≠ tid := fun waits =>
    ne0 (waits.symm.trans (ok.free free).2.2)
  rw [Proc.wakeJoiner, if_neg notWaiting]

/-- With argument 0 it makes a free slot runnable and leaves it without a
trapframe. -/
private theorem wakeJoiner_zero (ok : ThreadSlotOk t (p.threads t))
    (free : (p.threads t).state = .free) :
    (Proc.wakeJoiner 0 (p.threads t)).state = .runnable ∧
      (Proc.wakeJoiner 0 (p.threads t)).trapframe = none := by
  rw [Proc.wakeJoiner, if_pos (ok.free free).2.2]
  exact ⟨rfl, (ok.free free).1⟩

/-- The id 0 belongs to the free slots. -/
private theorem id_eq_zero_iff (ok : ThreadSlotOk t (p.threads t)) :
    (p.threads t).id = 0 ↔ (p.threads t).state = .free := by
  constructor
  · intro _
    by_contra live
    have idEq := (ok.live live).2
    omega
  · exact fun free => (ok.free free).2.1

@[simp] theorem wakeJoiners_threads (t : ThreadId) :
    (p.wakeJoiners tid).threads t = Proc.wakeJoiner tid (p.threads t) := rfl

@[simp] theorem wakeJoiners_currentThread :
    (p.wakeJoiners tid).currentThread = p.currentThread := rfl

/-- Inversion of `exit_t`: the joiners are woken, and then either no slot has
the id, or its last such slot is free, or that slot is freed. -/
theorem exitT_cases (p : Proc) (tid : Int) :
    (p.exitT tid = .failed (p.wakeJoiners tid) ∧ ∀ t, (p.threads t).id ≠ tid) ∨
      ∃ target, (p.threads target).id = tid ∧
        (p.exitT tid = .failed (p.wakeJoiners tid) ∧
            ((p.wakeJoiners tid).threads target).state = .free ∨
          p.exitT tid = .yields ((p.wakeJoiners tid).setThread target
            (freethread ((p.wakeJoiners tid).threads target))) ∧
            ((p.wakeJoiners tid).threads target).state ≠ .free) := by
  cases found : (p.wakeJoiners tid).lastWithId tid with
  | none =>
    refine Or.inl ⟨by simp [Proc.exitT, found], fun t idEq => ?_⟩
    have absent := List.find?_eq_none.mp found t (by simp)
    simp [idEq] at absent
  | some target =>
    have idEq := List.find?_some found
    simp only [wakeJoiners_threads, wakeJoiner_id, decide_eq_true_eq] at idEq
    refine Or.inr ⟨target, idEq, ?_⟩
    by_cases free : ((p.wakeJoiners tid).threads target).state = .free
    · refine Or.inl ⟨?_, free⟩
      simp only [Proc.exitT, found, if_pos free]
    · refine Or.inr ⟨?_, free⟩
      simp only [Proc.exitT, found, if_neg free]

/-- The loop of `exit_t` on a table in which no free slot has its join value:
the same slots are free afterwards. -/
theorem wakeJoiners_ok (table : p.TableOk) (ne0 : ∀ t, (p.threads t).state = .free → tid ≠ 0) :
    (p.wakeJoiners tid).TableOk ∧
      ∀ t, ((p.wakeJoiners tid).threads t).state = .free ↔ (p.threads t).state = .free := by
  have slot : ∀ t, ThreadSlotOk t ((p.wakeJoiners tid).threads t) ∧
      (((p.wakeJoiners tid).threads t).state = .free ↔ (p.threads t).state = .free) := by
    intro t
    by_cases free : (p.threads t).state = .free
    · rw [wakeJoiners_threads, wakeJoiner_free (table.slots t) (ne0 t free) free]
      exact ⟨table.slots t, Iff.rfl⟩
    have woken : ((p.wakeJoiners tid).threads t).state ≠ .free ∧
        ThreadSlotOk t ((p.wakeJoiners tid).threads t) := wakeJoiner_live (table.slots t) free
    exact ⟨woken.2, iff_of_false woken.1 free⟩
  exact ⟨⟨fun t => (slot t).1, table.frame⟩, fun t => (slot t).2⟩

private theorem wakeJoiners_currentOk (cur : p.CurrentOk)
    (sameFree : ∀ t, ((p.wakeJoiners tid).threads t).state = .free ↔
      (p.threads t).state = .free) : (p.wakeJoiners tid).CurrentOk := by
  simpa only [Proc.CurrentOk, Proc.AllFree, wakeJoiners_currentThread, ne_eq, sameFree]
    using cur

/-- How a safe `exit_t` ends. -/
theorem exitT_ok (table : p.TableOk) (cur : p.CurrentOk) (safe : p.ExitSafe tid) :
    (∃ after, p.exitT tid = .failed after ∧ after.TableOk ∧ after.CurrentOk ∧
      after.currentThread = p.currentThread) ∨
    ∃ after, p.exitT tid = .yields after ∧ after.TableOk ∧
      after.currentThread = p.currentThread ∧ (after.currentThread = none → after.AllFree) := by
  rcases exitT_cases p tid with ⟨failed, absent⟩ | ⟨target, idEq, ⟨failed, free⟩ | ⟨yields, _⟩⟩
  · have ne0 : ∀ t, (p.threads t).state = .free → tid ≠ 0 := by
      intro t free zero
      exact absent t (((table.slots t).free free).2.1.trans zero.symm)
    obtain ⟨woken, sameFree⟩ := wakeJoiners_ok table ne0
    exact Or.inl ⟨_, failed, woken, wakeJoiners_currentOk cur sameFree, rfl⟩
  · have ne0 : tid ≠ 0 := by
      intro zero
      subst zero
      have runnable := (wakeJoiner_zero (table.slots target)
        ((id_eq_zero_iff (table.slots target)).mp idEq)).1
      rw [wakeJoiners_threads, runnable] at free
      cases free
    obtain ⟨woken, sameFree⟩ := wakeJoiners_ok table fun _ _ => ne0
    exact Or.inl ⟨_, failed, woken, wakeJoiners_currentOk cur sameFree, rfl⟩
  have others : ∀ t, t ≠ target → (p.threads t).state = .free → tid ≠ 0 := by
    intro t ne free zero
    subst zero
    exact ne (safe rfl t target free ((id_eq_zero_iff (table.slots target)).mp idEq))
  refine Or.inr ⟨_, yields, ⟨fun t => ?_, table.frame⟩, rfl, ?_⟩
  · rw [Proc.setThread_threads]
    by_cases same : t = target
    · subst same
      rw [update_self]
      exact threadSlotOk_freethread _ _
    rw [update_of_ne same, wakeJoiners_threads]
    by_cases free : (p.threads t).state = .free
    · rw [wakeJoiner_free (table.slots t) (others t same free) free]
      exact table.slots t
    · exact (wakeJoiner_live (table.slots t) free).2
  -- a process without threads has no slot with a nonzero id and four free ones
  intro single
  have allFree : p.AllFree := by
    have noCurrent : p.currentThread = none := single
    simpa [Proc.CurrentOk, noCurrent] using cur
  have zero : tid = 0 := by
    rw [← idEq]
    exact ((table.slots target).free (allFree target)).2.1
  exact absurd (safe zero 0 1 (allFree 0) (allFree 1)) (by decide)

/-- One safe event keeps the invariant. -/
theorem threadRun_step_ok (ok : run.Ok) (safe : ThreadEventSafe run event) :
    (run.step event).Ok := by
  have single : run.proc.currentThread = none → run.proc.AllFree := by
    intro none
    simpa [Proc.CurrentOk, none] using ok.cur
  have exitCase : ∀ tid, run.proc.ExitSafe tid → (run.afterCall (run.proc.exitT tid)).Ok := by
    intro tid exitSafe
    rcases exitT_ok ok.table ok.cur exitSafe with
      ⟨after, failed, table, cur, same⟩ | ⟨_, yields, table, same, keepsFree⟩
    · rw [failed]
      exact ⟨table, cur, fun t looped => same.trans (ok.loop t looped)⟩
    · rw [yields]
      exact giveUp_ok table keepsFree fun t looped => same.trans (ok.loop t looped)
  cases event with
  | createThread _ _ _ _ _ =>
    simp only [ThreadRun.step]
    split
    · trivial
    rename_i tid p new
    obtain ⟨table, cur, same⟩ := createThread_ok ok.table ok.cur new
    exact ⟨table, cur, fun t looped => same t (ok.loop t looped)⟩
  | joinThread tid =>
    simp only [ThreadRun.step]
    cases joinEq : run.proc.joinThread tid with
    | fault => trivial
    | failed p =>
      have kept : p = run.proc := by
        rw [Proc.joinThread] at joinEq
        grind
      rw [kept]
      exact ok
    | yields =>
      obtain ⟨table, threaded, same⟩ := joinThread_ok ok.table ok.cur joinEq
      exact giveUp_ok table (fun none => absurd none threaded)
        (fun t looped => same.trans (ok.loop t looped))
  | exitThread tid =>
    simp only [ThreadEventSafe, Proc.exitArgument] at safe
    simp only [ThreadRun.step, Proc.exitThread]
    by_cases own : tid = -1
    · simp only [own, if_true] at safe ⊢
      cases currentEq : run.proc.currentThread with
      | none => trivial
      | some => exact exitCase _ (safe _ (by rw [currentEq]; rfl))
    · simp only [own, if_false] at safe ⊢
      exact exitCase tid (safe tid rfl)
  | giveUp => exact giveUp_ok ok.table single ok.loop

/-! ### The unsafe case -/

/-- A live slot without a trapframe. -/
def Thread.Dangling (thread : Thread) : Prop := thread.state ≠ .free ∧ thread.trapframe = none

theorem ThreadSlotOk.not_dangling (ok : ThreadSlotOk t thread) :
    ¬ thread.Dangling := fun dangling => (ok.live dangling.1).1 dangling.2

namespace Proc

variable (dangling : (p.threads bad).Dangling)
include dangling

/-- The scheduler cannot repair a dangling slot: it stops at a null copy before
it writes a trapframe there. -/
theorem saveTo_dangling (saved : p.saveTo t = some after) : (after.threads bad).Dangling := by
  rw [saveTo] at saved
  split at saved
  · rename_i frame _ targetEq _
    cases saved
    have ne : bad ≠ t := by
      rintro rfl
      rw [dangling.2] at targetEq
      cases targetEq
    rwa [setThread_threads, update_of_ne ne]
  · cases saved

theorem loadThread_dangling
    (loaded : p.loadThread t = some after) : (after.threads bad).Dangling := by
  rw [loadThread] at loaded
  split at loaded
  · rename_i frame _ sourceEq _
    cases loaded
    have ne : bad ≠ t := by
      rintro rfl
      rw [dangling.2] at sourceEq
      cases sourceEq
    simpa [update_of_ne ne] using dangling
  · cases loaded

theorem leaveThread_dangling
    (left : p.leaveThread t = some after) : (after.threads bad).Dangling := by
  have relabelled : ((p.setThread t { p.threads t with state := .runnable }).threads bad).Dangling := by
    by_cases same : bad = t
    · subst same
      exact ⟨by simp, by simpa using dangling.2⟩
    · simpa [update_of_ne same] using dangling
  rw [leaveThread] at left
  split at left
  · split at left
    · cases left
      exact relabelled
    · exact saveTo_dangling relabelled left
  · split at left
    · cases left
      exact dangling
    · exact saveTo_dangling dangling left

theorem saveCurrent_dangling
    (saved : p.saveCurrent = some after) : (after.threads bad).Dangling := by
  rw [saveCurrent] at saved
  split at saved
  · cases saved
    exact dangling
  split at saved
  · cases saved
    exact dangling
  · exact saveTo_dangling dangling saved

theorem threadLoop_dangling {stop : Option ThreadId}
    (looped : p.threadLoop start = some (after, stop)) : (after.threads bad).Dangling := by
  rw [threadLoop] at looped
  split at looped
  · cases looped
    exact dangling
  obtain ⟨_, loadedEq, pairEq⟩ := Option.map_eq_some_iff.mp looped
  cases pairEq
  exact loadThread_dangling dangling loadedEq

end Proc

/-- The table is well formed in every way to continue, with no null trapframe copied. -/
def Resumed.WellFormed : Resumed → Prop
  | .running run => ∀ t, ThreadSlotOk t (run.proc.threads t)
  | .stuck p => ∀ t, ThreadSlotOk t (p.threads t)
  | .nullCopy => False
  | .fault => True

theorem Resumed.Ok.wellFormed {resumed : Resumed} (ok : resumed.Ok) : resumed.WellFormed := by
  cases resumed with
  | running => exact ok.table.slots
  | stuck => exact ok.slots
  | nullCopy => exact ok
  | fault => trivial

theorem redispatch_dangling (dangling : (p.threads bad).Dangling) : ¬ p.redispatch.WellFormed := by
  rw [Proc.redispatch]
  split
  · exact fun wellFormed => (wellFormed bad).not_dangling dangling
  cases entered : p.enterThreads with
  | none => exact id
  | some res =>
    obtain ⟨_, stop⟩ := res
    obtain ⟨_, savedEq, looped⟩ := Option.bind_eq_some_iff.mp entered
    have still := Proc.threadLoop_dangling (Proc.saveCurrent_dangling dangling savedEq) looped
    cases stop with
    | none => exact fun wellFormed => (wellFormed bad).not_dangling still
    | some => exact fun wellFormed => (wellFormed bad).not_dangling still

theorem giveUp_dangling (dangling : (run.proc.threads bad).Dangling) : ¬ run.giveUp.WellFormed := by
  rw [ThreadRun.giveUp]
  split
  · exact redispatch_dangling dangling
  rename_i t _
  cases left : run.proc.afterSwtch t with
  | none => exact id
  | some res =>
    obtain ⟨_, stop⟩ := res
    obtain ⟨_, savedEq, looped⟩ := Option.bind_eq_some_iff.mp left
    have still := Proc.threadLoop_dangling (Proc.leaveThread_dangling dangling savedEq) looped
    cases stop with
    | none => exact redispatch_dangling still
    | some => exact fun wellFormed => (wellFormed bad).not_dangling still

/-- `exit_t(0)` with two free slots leaves one of them runnable without a
trapframe. -/
theorem exitT_zero_dangling (table : p.TableOk) (notSafe : ¬ p.ExitSafe 0) :
    ∃ after bad, p.exitT 0 = .yields after ∧ (after.threads bad).Dangling := by
  simp only [Proc.ExitSafe, forall_const, not_forall] at notSafe
  obtain ⟨t, t', free, free', ne⟩ := notSafe
  have woken : ∀ s, (p.threads s).state = .free → ((p.wakeJoiners 0).threads s).Dangling := by
    intro s slotFree
    obtain ⟨runnable, noFrame⟩ := wakeJoiner_zero (table.slots s) slotFree
    exact ⟨by simp [runnable], noFrame⟩
  rcases exitT_cases p 0 with ⟨_, absent⟩ | ⟨target, idEq, ⟨_, targetFree⟩ | ⟨yields, _⟩⟩
  · exact absurd ((table.slots t).free free).2.1 (absent t)
  · exact absurd targetFree (woken target ((id_eq_zero_iff (table.slots target)).mp idEq)).1
  obtain ⟨bad, badFree, notTarget⟩ : ∃ bad, (p.threads bad).state = .free ∧ bad ≠ target := by
    by_cases same : t = target
    · exact ⟨t', free', fun same' => ne (same.trans same'.symm)⟩
    · exact ⟨t, free, same⟩
  refine ⟨_, bad, yields, ?_⟩
  rw [Proc.setThread_threads, update_of_ne notTarget]
  exact woken bad badFree

/-- An unsafe event breaks the table. -/
theorem threadRun_step_breaks (ok : run.Ok) (notSafe : ¬ ThreadEventSafe run event) :
    ¬ (run.step event).WellFormed := by
  cases event with
  | createThread => exact absurd trivial notSafe
  | joinThread => exact absurd trivial notSafe
  | giveUp => exact absurd trivial notSafe
  | exitThread tid =>
    simp only [ThreadEventSafe, not_forall] at notSafe
    obtain ⟨argument, argumentEq, exitNotSafe⟩ := notSafe
    have zero : argument = 0 := by
      by_contra ne0
      exact exitNotSafe fun zero => absurd zero ne0
    subst zero
    have called : run.proc.exitThread tid = run.proc.exitT 0 := by
      simp only [Proc.exitArgument] at argumentEq
      simp only [Proc.exitThread]
      by_cases own : tid = -1
      · simp only [own, if_true] at argumentEq ⊢
        obtain ⟨_, currentEq, idEq⟩ := Option.map_eq_some_iff.mp argumentEq
        simp only [currentEq, idEq]
      · simp only [own, if_false, Option.some.injEq] at argumentEq ⊢
        rw [argumentEq]
    obtain ⟨_, _, yields, dangling⟩ := exitT_zero_dangling ok.table exitNotSafe
    simp only [ThreadRun.step, called, yields, ThreadRun.afterCall]
    exact giveUp_dangling dangling

/-- The thread state of a process that has not called `create_thread`. -/
structure Proc.FreshTable (p : Proc) : Prop where
  threads : ∀ t, p.threads t = {}
  cur : p.currentThread = none
  frame : p.trapframe ≠ none

theorem Proc.FreshTable.ok (fresh : p.FreshTable) : ThreadRun.Ok { proc := p, loop := none } := by
  refine ⟨⟨fun t => ?_, fresh.frame⟩, ?_, nofun⟩
  · rw [fresh.threads t]
    exact threadSlotOk_freethread t {}
  · rw [Proc.CurrentOk, fresh.cur]
    intro t
    rw [fresh.threads t]

theorem threadRun_ok (fresh : p.FreshTable)
    (reached : Run ThreadRun.next ThreadEventSafe { proc := p, loop := none } run) : run.Ok := by
  refine reached.invariant fresh.ok ?_
  intro _ _ _ beforeOk safe ran
  have stepOk := threadRun_step_ok beforeOk safe
  rw [ThreadRun.next] at ran
  split at ran
  · rename_i resumed
    cases ran
    rw [resumed] at stepOk
    exact stepOk
  · cases ran

/-- Thread-table well-formedness.  In every run from a fresh table whose events are all safe
every slot is well formed, and the next event keeps it so, without a copy through a null
trapframe, exactly if it is safe too. -/
theorem threadTable_wellFormed (p : Proc) (fresh : p.FreshTable) (run : ThreadRun)
    (reached : Run ThreadRun.next ThreadEventSafe { proc := p, loop := none } run) :
    (∀ t, ThreadSlotOk t (run.proc.threads t)) ∧
      ∀ event, (run.step event).WellFormed ↔ ThreadEventSafe run event := by
  have ok := threadRun_ok fresh reached
  refine ⟨ok.table.slots, fun event => ⟨fun wellFormed => ?_, fun safe => ?_⟩⟩
  · by_contra notSafe
    exact threadRun_step_breaks ok notSafe wellFormed
  · exact (threadRun_step_ok ok safe).wellFormed

def freshProc : Proc :=
  { state := .running, pid := 3, trapframe := some default, usageTime := some CpuUsage.fresh }

theorem freshProc_freshTable : freshProc.FreshTable := ⟨fun _ => rfl, rfl, by simp [freshProc]⟩

/-- Two threads: the main one and a created one, which then joins the main
one. -/
theorem threadTable_wellFormed_join :
    ∃ run, Run ThreadRun.next ThreadEventSafe { proc := freshProc, loop := none } run ∧
      (run.proc.threads 1).state ≠ .free ∧ ∀ t, ThreadSlotOk t (run.proc.threads t) := by
  obtain ⟨run, executed, live⟩ : ∃ run, runFrom ThreadRun.next { proc := freshProc, loop := none }
      [.createThread 64 7 4096 true true, .giveUp, .joinThread 2] = some run ∧
        (run.proc.threads 1).state ≠ .free := ⟨_, rfl, by decide⟩
  have reached : Run ThreadRun.next ThreadEventSafe { proc := freshProc, loop := none } run := by
    simp only [runFrom, Option.bind_eq_some_iff] at executed
    obtain ⟨_, firstEq, _, secondEq, _, thirdEq, last⟩ := executed
    cases last
    refine .tail (.tail (.single ?_ firstEq) ?_ secondEq) ?_ thirdEq <;> trivial
  exact ⟨run, reached, live, (threadTable_wellFormed freshProc freshProc_freshTable run reached).1⟩

/-- `exit_thread(0)` makes free slots runnable; the thread loop then copies from a null pointer. -/
theorem exitThread_zero_breaks_table :
    (∃ run, Run ThreadRun.next (fun _ _ => True) { proc := freshProc, loop := none } run ∧
      ¬ ThreadSlotOk 1 (run.proc.threads 1)) ∧
    ∃ run, Run ThreadRun.next (fun _ _ => True) { proc := freshProc, loop := none } run ∧
      run.step .giveUp = .nullCopy := by
  constructor
  · obtain ⟨run, executed, bad⟩ : ∃ run, runFrom ThreadRun.next
        { proc := freshProc, loop := none } [.exitThread 0] = some run ∧
          (run.proc.threads 1).state = .runnable ∧ (run.proc.threads 1).trapframe = none :=
      ⟨_, rfl, by decide, by decide⟩
    refine ⟨run, run_of_runFrom executed, fun ok => ?_⟩
    exact (ok.live (by simp [bad.1])).1 bad.2
  obtain ⟨run, executed, faults⟩ : ∃ run, runFrom ThreadRun.next
      { proc := freshProc, loop := none }
        [.exitThread 0, .createThread 64 7 4096 true true, .giveUp] = some run ∧
          run.step .giveUp = .nullCopy := ⟨_, rfl, rfl⟩
  exact ⟨run, run_of_runFrom executed, faults⟩

/-- What changes the thread table of a process: the three calls, and the pieces of the
thread loop of `scheduler`. -/
inductive TableEvent where
  | createThread (startRoutine arg pstack : UInt64) (kalloc1 kalloc2 : Bool)
  | joinThread (tid : Int)
  | exitThread (tid : Int)
  | saveCurrent
  | loadThread (t : ThreadId)
  | leaveThread (t : ThreadId)

/-- The table that a thread call leaves when it returns or gives up the CPU. -/
def ThreadCall.table : ThreadCall → Option Proc
  | .fault => none
  | .failed p => some p
  | .yields p => some p

namespace Proc

/-- One change of the table; `none` is a fault.  The scheduler may do its parts in any
order. -/
def tableStep (p : Proc) : TableEvent → Option Proc
  | .createThread startRoutine arg pstack kalloc1 kalloc2 =>
    (p.createThread startRoutine arg pstack kalloc1 kalloc2).map Prod.snd
  | .joinThread tid => (p.joinThread tid).table
  | .exitThread tid => (p.exitThread tid).table
  | .saveCurrent => p.saveCurrent
  | .loadThread t => if (p.threads t).state = .runnable then p.loadThread t else none
  | .leaveThread t => p.leaveThread t

/-- No thread is joined. -/
def NoneJoined (p : Proc) : Prop := ∀ t, (p.threads t).state ≠ .joined

/-- Every joined thread waits for the id of a slot that is not free. -/
structure JoinsLive (p : Proc) : Prop where
  target : ∀ t, (p.threads t).state = .joined →
    ∃ t', (p.threads t').state ≠ .free ∧ (p.threads t').id = (p.threads t).join
  single : p.currentThread = none → p.NoneJoined

variable {q : Proc}

theorem NoneJoined.setThread (noneJoined : p.NoneJoined) (notJoined : thread.state ≠ .joined) :
    (p.setThread t thread).NoneJoined := by
  intro t'
  rw [setThread_threads]
  by_cases same : t' = t
  · rwa [same, update_self]
  · rw [update_of_ne same]
    exact noneJoined t'

theorem freethread_notJoined (thread : Thread) : (freethread thread).state ≠ .joined := by
  simp [freethread]

theorem NoneJoined.joinsLive (noneJoined : p.NoneJoined) : p.JoinsLive :=
  ⟨fun t joined => absurd joined (noneJoined t), fun _ => noneJoined⟩

namespace JoinsLive

variable (inv : p.JoinsLive)
include inv

/-- A step after which the slots have the same ids, as many of them are live, and no
more threads are joined. -/
theorem relabel (cur : q.currentThread = none → p.currentThread = none)
    (live : ∀ t', (p.threads t').state ≠ .free →
      (q.threads t').state ≠ .free ∧ (q.threads t').id = (p.threads t').id)
    (joined : ∀ t', (q.threads t').state = .joined →
      (p.threads t').state = .joined ∧ (q.threads t').join = (p.threads t').join) :
    q.JoinsLive := by
  refine ⟨fun t isJoined => ?_, fun null t isJoined => ?_⟩
  · obtain ⟨wasJoined, sameJoin⟩ := joined t isJoined
    obtain ⟨t', notFree, idEq⟩ := inv.target t wasJoined
    exact ⟨t', (live t' notFree).1, by rw [(live t' notFree).2, idEq, sameJoin]⟩
  · exact inv.single (cur null) t (joined t isJoined).1

/-- The scheduler changes the state or the trapframe of a live thread, or any call what
is in a free slot. -/
theorem setThread
    (live : (p.threads t).state ≠ .free → thread.state ≠ .free ∧ thread.id = (p.threads t).id)
    (joined : thread.state = .joined →
      (p.threads t).state = .joined ∧ thread.join = (p.threads t).join) :
    (p.setThread t thread).JoinsLive := by
  refine inv.relabel id (fun t' notFree => ?_) (fun t' isJoined => ?_)
  · rw [setThread_threads]
    by_cases same : t' = t
    · subst same
      rw [update_self]
      exact live notFree
    · rw [update_of_ne same]
      exact ⟨notFree, rfl⟩
  rw [setThread_threads] at isJoined ⊢
  by_cases same : t' = t
  · subst same
    rw [update_self] at isJoined ⊢
    exact joined isJoined
  · rw [update_of_ne same] at isJoined ⊢
    exact ⟨isJoined, rfl⟩

theorem saveTo (saved : p.saveTo t = some q) : q.JoinsLive := by
  rw [Proc.saveTo] at saved
  split at saved
  · cases saved
    exact inv.setThread (fun live => ⟨live, rfl⟩) (fun joined => ⟨joined, rfl⟩)
  · cases saved

theorem saveCurrent (saved : p.saveCurrent = some q) : q.JoinsLive := by
  rw [Proc.saveCurrent] at saved
  split at saved
  · cases saved
    exact inv
  split at saved
  · cases saved
    exact inv
  · exact inv.saveTo saved

theorem loadThread (loaded : p.loadThread t = some q) : q.JoinsLive := by
  rw [Proc.loadThread] at loaded
  split at loaded
  · cases loaded
    have stored : (p.setThread t { p.threads t with state := .running }).JoinsLive :=
      inv.setThread (fun _ => ⟨by simp, rfl⟩) (by simp)
    exact ⟨stored.target, (by simp)⟩
  · cases loaded

theorem leaveThread (left : p.leaveThread t = some q) : q.JoinsLive := by
  have ready : (p.setThread t { p.threads t with state := .runnable }).JoinsLive :=
    inv.setThread (fun _ => ⟨by simp, rfl⟩) (by simp)
  rw [Proc.leaveThread] at left
  split at left <;> split at left
  · cases left
    exact ready
  · exact ready.saveTo left
  · cases left
    exact inv
  · exact inv.saveTo left

theorem createSecond {kalloc flag : Bool} (flagged : flag = true → p.NoneJoined)
    (new : p.createSecond startRoutine arg pstack kalloc flag = some (tid, q)) :
    q.JoinsLive := by
  rw [Proc.createSecond] at new
  split at new
  · cases new
    exact inv
  rename_i t found
  have free := firstFree_state found
  split at new
  · obtain ⟨_, stored, same⟩ := Option.map_eq_some_iff.mp new
    cases same
    obtain ⟨_, _, rfl⟩ := Option.map_eq_some_iff.mp stored
    exact inv.setThread (fun live => absurd free live) (by simp)
  have cleared : (p.setThread t { p.threads t with trapframe := none }).JoinsLive :=
    inv.setThread (fun live => absurd free live) (fun joined => ⟨joined, rfl⟩)
  simp only at new
  split at new
  · cases new
    exact NoneJoined.joinsLive (NoneJoined.setThread
      (NoneJoined.setThread (flagged rfl) (flagged rfl t)) (freethread_notJoined _))
  · cases new
    exact cleared

theorem createThread {kalloc1 kalloc2 : Bool}
    (new : p.createThread startRoutine arg pstack kalloc1 kalloc2 = some (tid, q)) :
    q.JoinsLive := by
  rw [Proc.createThread] at new
  split at new
  · rename_i null
    have noneJoined := inv.single null
    split at new
    · obtain ⟨main, made, rest⟩ := Option.bind_eq_some_iff.mp new
      obtain ⟨frame, _, rfl⟩ := Option.map_eq_some_iff.mp made
      -- there is nobody yet who could wait for the slot that the main thread takes
      have mainJoined := noneJoined.setThread (t := 0)
        (show Thread.state ⟨.runnable, some frame, 1, 0⟩ ≠ .joined by simp)
      refine createSecond ?_ ?_ rest
      · exact NoneJoined.joinsLive mainJoined
      · exact fun _ => mainJoined
    · cases new
      exact NoneJoined.joinsLive (NoneJoined.setThread noneJoined (noneJoined 0))
  · exact inv.createSecond (fun flag => by cases flag) new

theorem joinThread (called : (p.joinThread tid).table = some q) : q.JoinsLive := by
  rw [Proc.joinThread] at called
  split at called
  · cases called
    exact inv
  rename_i target found
  split at called
  · cases called
  rename_i caller cur
  cases called
  have isTarget : (p.threads target).id = tid ∧ (p.threads target).state ≠ .free := by
    simpa using List.find?_some found
  -- the caller is live afterwards, under its old id
  have live : ∀ t', (p.threads t').state ≠ .free → ((p.setThread caller
      { p.threads caller with join := tid, state := .joined }).threads t').state ≠ .free ∧
      ((p.setThread caller { p.threads caller with join := tid, state := .joined }).threads
        t').id = (p.threads t').id := by
    intro t' notFree
    rw [setThread_threads]
    by_cases same : t' = caller
    · subst same
      simp
    · rw [update_of_ne same]
      exact ⟨notFree, rfl⟩
  refine ⟨fun t joined => ?_, fun null => absurd (null.symm.trans cur) (by simp)⟩
  by_cases same : t = caller
  · refine ⟨target, (live target isTarget.2).1, ?_⟩
    rw [(live target isTarget.2).2, isTarget.1, same]
    simp
  rw [setThread_threads, update_of_ne same] at joined
  obtain ⟨t', notFree, idEq⟩ := inv.target t joined
  refine ⟨t', (live t' notFree).1, ?_⟩
  rw [(live t' notFree).2, idEq, setThread_threads, update_of_ne same]

/-- The loop of `exit_t` leaves nobody who waits for `tid`. -/
theorem wakeJoiners (tid : Int) : (p.wakeJoiners tid).JoinsLive ∧
    ∀ t, ((p.wakeJoiners tid).threads t).state = .joined →
      ((p.wakeJoiners tid).threads t).join ≠ tid := by
  have joined : ∀ t, ((p.wakeJoiners tid).threads t).state = .joined →
      (p.wakeJoiners tid).threads t = p.threads t ∧ (p.threads t).join ≠ tid := by
    intro t isJoined
    rw [wakeJoiners_threads, wakeJoiner] at isJoined ⊢
    split at isJoined
    · cases isJoined
    · rename_i other
      exact ⟨if_neg other, other⟩
  constructor
  · refine inv.relabel id (fun t' notFree => ?_) (fun t' isJoined => ?_)
    · rw [wakeJoiners_threads, wakeJoiner]
      split
      · exact ⟨by simp, rfl⟩
      · exact ⟨notFree, rfl⟩
    · obtain ⟨same, _⟩ := joined t' isJoined
      rw [same] at isJoined ⊢
      exact ⟨isJoined, rfl⟩
  · intro t isJoined
    rw [(joined t isJoined).1]
    exact (joined t isJoined).2

theorem exitT (called : (p.exitT tid).table = some q) : q.JoinsLive := by
  obtain ⟨woken, nobody⟩ := inv.wakeJoiners tid
  rcases exitT_cases p tid with ⟨failed, _⟩ | ⟨target, idEq, ⟨failed, _⟩ | ⟨yields, _⟩⟩
  · rw [failed] at called
    cases called
    exact woken
  · rw [failed] at called
    cases called
    exact woken
  rw [yields] at called
  cases called
  have ended : ((p.wakeJoiners tid).threads target).id = tid := by
    rw [wakeJoiners_threads, wakeJoiner_id, idEq]
  refine ⟨fun t joined => ?_, fun null => ?_⟩
  · have other : t ≠ target := by
      rintro rfl
      rw [setThread_threads, update_self] at joined
      cases joined
    rw [setThread_threads, update_of_ne other] at joined ⊢
    -- the target of `t` has another id than the slot that is freed
    obtain ⟨t', _, sameId⟩ := woken.target t joined
    have ne : t' ≠ target := by
      rintro rfl
      exact nobody t joined (sameId.symm.trans ended)
    exact ⟨t', by rwa [update_of_ne ne], by rwa [update_of_ne ne]⟩
  · exact (woken.single null).setThread (freethread_notJoined _)

/-- Every change of the table keeps the targets of the joined threads alive. -/
theorem step {event : TableEvent} (ran : p.tableStep event = some q) : q.JoinsLive := by
  cases event with
  | createThread =>
    obtain ⟨⟨_, _⟩, new, rfl⟩ := Option.map_eq_some_iff.mp ran
    exact inv.createThread new
  | joinThread => exact inv.joinThread ran
  | exitThread =>
    simp only [tableStep, exitThread] at ran
    split at ran
    · split at ran
      · cases ran
      · exact inv.exitT ran
    · exact inv.exitT ran
  | saveCurrent => exact inv.saveCurrent ran
  | loadThread =>
    simp only [tableStep] at ran
    split at ran
    · exact inv.loadThread ran
    · cases ran
  | leaveThread => exact inv.leaveThread ran

end JoinsLive

end Proc

/-- From any process without threads, after any sequence of `create_thread`, `join_thread`,
`exit_thread` and updates by the scheduler, every joined thread waits for the id of a slot that
is not free. -/
theorem joined_threads_have_targets {p q : Proc} (fresh : p.AllFree)
    (run : Run Proc.tableStep (fun _ _ => True) p q) :
    ∀ t, (q.threads t).state = .joined →
      ∃ t', (q.threads t').state ≠ .free ∧ (q.threads t').id = (q.threads t).join := by
  have start : p.NoneJoined := by
    intro t joined
    rw [fresh t] at joined
    cases joined
  have inv : q.JoinsLive := run.invariant start.joinsLive fun pre _ ran =>
    pre.step ran
  exact inv.target

/-- The main thread joins the thread it has created. -/
theorem joined_threads_have_targets_main :
    ∃ q : Proc, (q.threads 0).state = .joined ∧
      ∃ t', (q.threads t').state ≠ .free ∧ (q.threads t').id = (q.threads 0).join := by
  obtain ⟨q, run, joined⟩ := exists_run_of_runFrom Proc.tableStep freshProc
    [.createThread 0 0 0 true true, .joinThread 2]
    (P := fun q : Proc => (q.threads 0).state = .joined) (by decide)
  exact ⟨q, joined, joined_threads_have_targets (fun _ => rfl) run 0 joined⟩

end CustomXv6

/-
Module: CustomXv6.Kernel.Frame
Purpose: What the steps of the kernel leave alone.
Trusted boundary: none
Main exports: schedStep_kept, ProcChange, Kernel.Inv.step_change
-/
import CustomXv6.Kernel.Ready

namespace CustomXv6

open Kernel

open Function

variable {n : Nat}
variable {s s' : Kernel n} {c : Fin n} {p : ProcId} {x : Proc}

/-! ### Operations on the table -/

section Table

variable (self : Option ProcId) (chan : Option Chan) (initproc p : ProcId)
  (procs : ProcId → Proc) (i : ProcId)

@[simp] theorem wakeup_context : (wakeup self chan procs i).context = (procs i).context := by
  rw [wakeup]
  split <;> rfl

@[simp] theorem wakeup_currentThread :
    (wakeup self chan procs i).currentThread = (procs i).currentThread := by
  rw [wakeup]
  split <;> rfl

@[simp] theorem wakeup_parent : (wakeup self chan procs i).parent = (procs i).parent := by
  rw [wakeup]
  split <;> rfl

@[simp] theorem orphan_context : (orphan initproc p procs i).context = (procs i).context := by
  rcases orphan_cases initproc p procs i with same | ⟨_, same⟩ <;> rw [same]

@[simp] theorem orphan_usageTime : (orphan initproc p procs i).usageTime = (procs i).usageTime := by
  rcases orphan_cases initproc p procs i with same | ⟨_, same⟩ <;> rw [same]

@[simp] theorem orphan_currentThread :
    (orphan initproc p procs i).currentThread = (procs i).currentThread := by
  rcases orphan_cases initproc p procs i with same | ⟨_, same⟩ <;> rw [same]

@[simp] theorem orphan_pid : (orphan initproc p procs i).pid = (procs i).pid := by
  rcases orphan_cases initproc p procs i with same | ⟨_, same⟩ <;> rw [same]

@[simp] theorem orphan_parent :
    (orphan initproc p procs i).parent = newParent initproc p (procs i).parent := by
  rcases orphan_cases initproc p procs i with same | ⟨_, same⟩ <;> rw [same]

end Table

variable {cont : Cont} {y : Proc} {effect : Effect n}

theorem setCont_procs (i : ProcId) :
    (s.setCont p cont).procs i = if i = p then { s.procs p with context := cont } else s.procs i := by
  rw [setCont, setProc_procs, update_apply]

/-! ### The scheduler -/

structure Proc.Kept (x y : Proc) : Prop where
  context : y.context = x.context
  pid : y.pid = x.pid
  parent : y.parent = x.parent
  killed : y.killed = x.killed
  usage : y.usageTime.map (fun usage => (usage.sumOfTicks, usage.quota, usage.deadline)) =
    x.usageTime.map fun usage => (usage.sumOfTicks, usage.quota, usage.deadline)

theorem Proc.Kept.refl (x : Proc) : x.Kept x := ⟨rfl, rfl, rfl, rfl, rfl⟩

theorem Proc.Kept.key (kept : x.Kept y) : y.key = x.key := by
  have projected := congrArg (Option.map fun entry : UInt32 × UInt32 × UInt32 =>
    (entry.1, entry.2.2)) kept.usage
  simpa [Proc.key, Option.map_map, Function.comp_def] using projected

/-- The scheduler keeps every process, except for its state, threads and dispatch times. -/
theorem schedStep_kept (step : SchedStep s c s') (p : ProcId) : (s.procs p).Kept (s'.procs p) := by
  have updated : ∀ {p' : ProcId} {x : Proc}, (s.procs p').Kept x →
      (s.procs p).Kept (update s.procs p' x p) := by
    intro p' x _
    by_cases same : p = p'
    · subst same
      rwa [update_self]
    · rw [update_of_ne same]
      exact .refl _
  cases step with
  | moves => exact .refl _
  | pushes => exact .refl _
  | drops => exact updated ⟨rfl, rfl, rfl, rfl, rfl⟩
  | chooses => exact updated ⟨rfl, rfl, rfl, rfl, rfl⟩
  | unparks => exact .refl _
  | enters _ _ _ _ _ _ same has =>
    refine updated ⟨same.context, same.pid, same.parent, same.killed, ?_⟩
    rw [has]
    rfl
  | rests _ _ _ _ same =>
    exact updated ⟨same.context, same.pid, same.parent, same.killed,
      by rw [show _ = _ from same.usageTime]⟩
  | faults => exact updated ⟨rfl, rfl, rfl, rfl, rfl⟩
  | stops => exact .refl _

/-- `sched` touches only the process that calls it. -/
theorem sched_other {t : Option ThreadId} {p' : ProcId} (other : p' ≠ p) :
    (s.sched c p t x).procs p' = s.procs p' := by
  have returned := sched_cases s c p t x
  generalize s.sched c p t x = s' at returned ⊢
  cases returned with
  | panics => rfl
  | leaves => simp [leave, other]
  | reenters =>
    rw [enter]
    split
    · rfl
    · simp [other]

/-- What `sched` makes of its caller: the accounting, the limit tests and the thread loop. -/
structure Proc.Settled (clock : Nat → UInt32) (ticks : UInt32) (x y : Proc) : Prop where
  context : y.context = x.context
  pid : y.pid = x.pid
  parent : y.parent = x.parent
  killed : y.killed = x.killed
  usage : ∃ usage, x.usageTime = some usage ∧
    Limited ticks (usage.settled clock) x.state y.state ∧
      y.usageTime.map (fun usage => (usage.sumOfTicks, usage.quota, usage.deadline)) =
        some ((usage.settled clock).sumOfTicks, usage.quota, usage.deadline)

theorem Limited.not_running {ticks : UInt32} {usage : CpuUsage} {pre after : ProcState}
    (lim : Limited ticks usage pre after) (stopped : pre ≠ .running) : after ≠ .running := by
  cases lim with
  | late => simp
  | overQuota => simp
  | within => simp
  | untested => exact stopped

theorem sched_self {t : Option ThreadId} (stopped : x.state ≠ .running) :
    (s.sched c p t x).procs p = s.procs p ∨ x.Settled s.ticksAt s.ticks ((s.sched c p t x).procs p) := by
  have returned := sched_cases s c p t x
  generalize s.sched c p t x = s' at returned ⊢
  cases returned with
  | panics => exact .inl rfl
  | leaves usage _ y has lim same =>
    have notRunning : y.state ≠ .running := by
      rw [same.state]
      exact lim.not_running stopped
    rw [leave, if_neg notRunning]
    simp only [setCpu_procs, setProc_procs, update_self]
    refine .inr ⟨same.context, same.pid, same.parent, same.killed, usage, has, ?_, ?_⟩
    · rw [same.state]
      exact lim
    · rw [same.usageTime]
      rfl
  | reenters usage _ y _ _ has lim _ _ left =>
    have same := Proc.SameCore.afterSwtch left
    have hasSettled : y.usageTime = some (usage.settled s.ticksAt) := same.usageTime
    simp only [enter, hasSettled]
    simp only [setCpu_procs, setProc_procs, update_self]
    refine .inr ⟨same.context, same.pid, same.parent, same.killed, usage, has, ?_, rfl⟩
    rw [same.state]
    exact lim

/-- One entry of the table after `sched`. -/
theorem sched_entry (s : Kernel n) (c : Fin n) (p : ProcId) (t : Option ThreadId)
    (stopped : x.state ≠ .running) (i : ProcId) :
    (s.sched c p t x).procs i = s.procs i ∨
      i = p ∧ x.Settled s.ticksAt s.ticks ((s.sched c p t x).procs i) := by
  by_cases same : i = p
  · subst same
    exact (sched_self stopped).imp_right fun fixed => ⟨rfl, fixed⟩
  · exact .inl (sched_other same)

/-- One entry of the table after `exit`. -/
theorem exit_entry (c : Fin n) (t : Option ThreadId) (status : Int) (notInit : p ≠ s.initproc)
    (i : ProcId) :
    (s.finish c p t (s.exit p status)).procs i = orphan s.initproc p s.procs i ∨
      i = p ∧ ({ orphan s.initproc p s.procs p with xstate := status, state := .zombie } :
        Proc).Settled s.ticksAt s.ticks ((s.finish c p t (s.exit p status)).procs i) := by
  rw [Kernel.exit, if_neg notInit]
  exact sched_entry { s with procs := orphan s.initproc p s.procs } c p t (by simp) i

/-! ### The CPUs -/

/-- What an action of its process can do to a CPU: take the process off it,
switch to another thread, or stop it. -/
inductive Cpu.Released : Cpu → Prop where
  | left : Cpu.Released { proc := none, pc := .scan 0 }
  | reentered (p : ProcId) (t : ThreadId) : Cpu.Released { proc := some p, pc := .swtched (some t) }
  | stopped (proc : Option ProcId) (reason : Panic) (noOverflow : reason ≠ .pqOverflow) :
      Cpu.Released { proc := proc, pc := .panicked reason }

theorem panic_cpus (s : Kernel n) (c : Fin n) (reason : Panic) (noOverflow : reason ≠ .pqOverflow)
    (c' : Fin n) : (s.panic c reason).cpus c' = s.cpus c' ∨
      (c' = c ∧ ((s.panic c reason).cpus c').Released) := by
  by_cases same : c' = c
  · subst same
    refine .inr ⟨rfl, ?_⟩
    simp only [Kernel.panic, Kernel.setPc, Kernel.setCpu_cpus, update_self]
    exact .stopped _ reason noOverflow
  · simp [Kernel.panic, Kernel.setPc, same]

theorem sched_cpus (s : Kernel n) (c : Fin n) (p : ProcId) (t : Option ThreadId) (x : Proc)
    (c' : Fin n) : (s.sched c p t x).cpus c' = s.cpus c' ∨
      (c' = c ∧ ((s.sched c p t x).cpus c').Released) := by
  have returned := sched_cases s c p t x
  generalize s.sched c p t x = s' at returned ⊢
  by_cases same : c' = c
  · subst same
    refine .inr ⟨rfl, ?_⟩
    cases returned with
    | panics =>
      simp only [Kernel.panic, Kernel.setPc, Kernel.setCpu_cpus, update_self]
      exact .stopped _ _ (by simp)
    | leaves =>
      simp only [Kernel.leave, Kernel.setCpu_cpus, update_self]
      exact .left
    | reenters =>
      rw [Kernel.enter]
      split
      · simp only [Kernel.panic, Kernel.setPc, Kernel.setCpu_cpus, update_self]
        exact .stopped _ _ (by simp)
      · simp only [Kernel.setCpu_cpus, update_self]
        exact .reentered _ _
  refine .inl ?_
  cases returned with
  | panics => simp [Kernel.panic, Kernel.setPc, same]
  | leaves => simp [Kernel.leave, same]
  | reenters =>
    rw [Kernel.enter]
    split
    · simp [Kernel.panic, Kernel.setPc, same]
    · simp [same]

/-- An action of a process touches at most its own CPU. -/
theorem procStep_cpus {act : ProcAction} (step : ProcStep s p act effect)
    (t : Option ThreadId) (c' : Fin n) :
    (s.finish c p t effect).cpus c' = s.cpus c' ∨
      (c' = c ∧ ((s.finish c p t effect).cpus c').Released) := by
  cases step with
  | yields => exact sched_cpus s c p t _ c'
  | sleeps => exact sched_cpus s c p t _ c'
  | exits _ _ notInit =>
    rw [exit, if_neg notInit]
    exact sched_cpus _ c p t _ c'
  | panics reason noOverflow => exact panic_cpus s c reason noOverflow c'
  | _ => exact .inl rfl

theorem schedStep_cpus {c' : Fin n} (step : SchedStep s c s') (other : c' ≠ c) :
    s'.cpus c' = s.cpus c' := by
  cases step with
  | drops => rfl
  | _ => simp [Kernel.setPc, Kernel.panic, other]

variable {act : Action n}

/-- A CPU changes only by a step of its scheduler or an action of the process
it executes. -/
theorem step_cpus (ran : s.step act = some s') (c : Fin n) :
    s'.cpus c = s.cpus c ∨ (act = .scheduler c ∧ SchedStep s c s') ∨ (s'.cpus c).Released := by
  cases step_cases ran with
  | @scheduler c' _ step =>
    by_cases same : c = c'
    · subst same
      exact .inr (.inl ⟨rfl, step⟩)
    · exact .inl (schedStep_cpus step same)
  | tick => exact .inl rfl
  | wakes => exact .inl rfl
  | proc _ step =>
    rcases procStep_cpus step _ c with same | ⟨_, freed⟩
    · exact .inl same
    · exact .inr (.inr freed)

/-- `sched` leaves the heap and the global variables alone. -/
theorem sched_globals (s : Kernel n) (c : Fin n) (p : ProcId) (t : Option ThreadId) (x : Proc) :
    (s.sched c p t x).pq = s.pq ∧ (s.sched c p t x).ticks = s.ticks ∧
      (s.sched c p t x).nextpid = s.nextpid ∧ (s.sched c p t x).initproc = s.initproc := by
  have returned := sched_cases s c p t x
  generalize s.sched c p t x = s' at returned ⊢
  cases returned with
  | panics => exact ⟨rfl, rfl, rfl, rfl⟩
  | leaves => exact ⟨rfl, rfl, rfl, rfl⟩
  | reenters =>
    rw [enter]
    split <;> exact ⟨rfl, rfl, rfl, rfl⟩

/-- An action of a process leaves the global variables alone, but for the next
pid. -/
theorem procStep_globals {act : ProcAction} (step : ProcStep s p act effect) (t : Option ThreadId) :
    (s.finish c p t effect).ticks = s.ticks ∧ s.nextpid ≤ (s.finish c p t effect).nextpid ∧
      (s.finish c p t effect).initproc = s.initproc := by
  have called : ∀ {s₁ : Kernel n} {x : Proc}, s₁.ticks = s.ticks → s₁.nextpid = s.nextpid →
      s₁.initproc = s.initproc → (s₁.sched c p t x).ticks = s.ticks ∧
        s.nextpid ≤ (s₁.sched c p t x).nextpid ∧ (s₁.sched c p t x).initproc = s.initproc := by
    intro s₁ x ticks next init
    obtain ⟨_, ticks', next', init'⟩ := sched_globals s₁ c p t x
    exact ⟨ticks'.trans ticks, Int.le_of_eq (next'.trans next).symm, init'.trans init⟩
  cases step with
  | taken => exact ⟨rfl, Int.le_of_lt (Int.lt_succ _), rfl⟩
  | refused => exact ⟨rfl, Int.le_of_lt (Int.lt_succ _), rfl⟩
  | yields => exact called rfl rfl rfl
  | sleeps => exact called rfl rfl rfl
  | exits _ _ notInit =>
    rw [exit, if_neg notInit]
    exact called rfl rfl rfl
  | _ => exact ⟨rfl, Int.le_refl _, rfl⟩

/-- Pids are handed out in order, and the first process stays the same. -/
theorem step_globals (ran : s.step act = some s') :
    s.nextpid ≤ s'.nextpid ∧ s'.initproc = s.initproc := by
  cases step_cases ran with
  | scheduler step => cases step <;> exact ⟨Int.le_refl _, rfl⟩
  | tick => exact ⟨Int.le_refl _, rfl⟩
  | wakes => exact ⟨Int.le_refl _, rfl⟩
  | proc _ step => exact (procStep_globals step _).2

/-- Only the timer moves `ticks`. -/
theorem step_ticks (ran : s.step act = some s')
    (noTimer : act.isTimer = false) : s'.ticks = s.ticks := by
  cases step_cases ran with
  | scheduler step => cases step <;> rfl
  | tick => cases noTimer
  | wakes _ _ _ _ timer => exact timer noTimer
  | proc _ step => exact (procStep_globals step _).1

theorem step_timer (ran : s.step act = some s') (timer : act.isTimer) : s'.ticks = s.ticks + 1 := by
  cases act with
  | clockintr =>
    obtain ⟨_, rfl⟩ := clockintr_step_cases ran
    rfl
  | tick => rw [tick_step_cases ran]
  | _ => cases timer

/-! ### One process through one step -/

/-- How one step of the kernel can change process `p`.  The first six rules
are about a process that does not execute (`stores` also if it sets its own
quota), the next four about the scheduler, the last three about the executing
process. -/
inductive ProcChange (s : Kernel n) (p : ProcId) : Action n → Proc → Prop where
  | idles {act : Action n} (y : Proc) (state : y.state = (s.procs p).state)
      (context : y.context = (s.procs p).context) (usage : y.usageTime = (s.procs p).usageTime)
      (pid : y.pid = (s.procs p).pid) : ProcChange s p act y
  | wakes {act : Action n} (y : Proc) (sleeping : (s.procs p).state = .sleeping)
      (state : y.state = .runnable) (context : y.context = (s.procs p).context)
      (usage : y.usageTime = (s.procs p).usageTime) (pid : y.pid = (s.procs p).pid) :
      ProcChange s p act y
  | readies {act : Action n} (deadline : Option UInt32) (y : Proc)
      (used : (s.procs p).state = .used) (readied : (s.procs p).Readied deadline y) :
      ProcChange s p act y
  | taken {c : Fin n} {p' : ProcId} {t : Option ThreadId} (deadline : Option UInt32)
      (frame : Trapframe) (runs : s.executing c = some (p', t))
      (searching : (s.procs p').context = .allocproc deadline p)
      (free : (s.procs p).state = .unused) (framed : (s.procs p').trapframe = some frame) :
      ProcChange s p (.proc c (.allocproc true)) (newProc s.nextpid frame (s.procs p))
  | freed {act : Action n} (off : (s.procs p).state = .unused ∨ (s.procs p).state = .zombie) :
      ProcChange s p act (freeproc (s.procs p))
  | stores {c : Fin n} {p' : ProcId} {t : Option ThreadId} (quota : UInt32) (usage : CpuUsage)
      (y : Proc) (runs : s.executing c = some (p', t))
      (storing : (s.procs p').context = .quotaStore quota p)
      (has : (s.procs p).usageTime = some usage) (state : y.state = (s.procs p).state)
      (context : y.context = (s.procs p).context ∨ y.context = .kernel)
      (stored : y.usageTime = some { usage with quota := quota })
      (pid : y.pid = (s.procs p).pid) :
      ProcChange s p (.proc c .quotaStep) y
  | drops {c : Fin n} (usage : CpuUsage) (popped : p ∈ s.pq.procs)
      (has : (s.procs p).usageTime = some usage) (late : usage.deadline ≤ s.ticks) :
      ProcChange s p (.scheduler c) { s.procs p with state := .dropped }
  | chooses {c : Fin n} (usage : CpuUsage) (popped : p ∈ s.pq.procs)
      (has : (s.procs p).usageTime = some usage) (early : ¬ usage.deadline ≤ s.ticks) :
      ProcChange s p (.scheduler c) { s.procs p with state := .chosenToRun }
  | enters {c : Fin n} (src : Source) (y : Proc)
      (choosing : (s.cpus c).pc = .chosen p src) (state : y.state = .running)
      (kept : (s.procs p).Kept y) : ProcChange s p (.scheduler c) y
  | rests {c : Fin n} (src : Source) (y : Proc)
      (choosing : (s.cpus c).pc = .chosen p src) (state : y.state = .runnable)
      (kept : (s.procs p).Kept y) (threaded : (s.procs p).currentThread ≠ none)
      (stuck : ∀ t, ((s.procs p).threads t).state ≠ .runnable) :
      ProcChange s p (.scheduler c) y
  | own {c : Fin n} {act : ProcAction} {t : Option ThreadId} (y : Proc)
      (runs : s.executing c = some (p, t)) (state : y.state = (s.procs p).state)
      (pre : (s.procs p).context ≠ .trapYield) (after : y.context ≠ .trapYield)
      (limits : y.usageTime.map (fun usage => (usage.quota, usage.deadline)) =
        (s.procs p).usageTime.map fun usage => (usage.quota, usage.deadline))
      (pid : y.pid = (s.procs p).pid) : ProcChange s p (.proc c act) y
  | expired {c : Fin n} {t : Option ThreadId} (usage : CpuUsage)
      (runs : s.executing c = some (p, t)) (has : (s.procs p).usageTime = some usage)
      (late : usage.deadline ≤ s.ticks) :
      ProcChange s p (.proc c .usertrap)
        { s.procs p with
          usageTime := some (usage.charge s.ticks)
          state := .dropped
          context := .trapYield }
  | gives {c : Fin n} {act : ProcAction} {t : Option ThreadId} (x y : Proc)
      (runs : s.executing c = some (p, t))
      (stopped : x.state = .runnable ∨ (x.state = .sleeping ∧ act.sleepCall ∧
        s.givesUp p act) ∨ (x.state = .zombie ∧ ∃ status, act = .exit status))
      (context : x.context ≠ .trapYield) (usage : x.usageTime = (s.procs p).usageTime)
      (pid : x.pid = (s.procs p).pid) (settled : x.Settled s.ticksAt s.ticks y) :
      ProcChange s p (.proc c act) y

namespace ProcChange

variable {s : Kernel n} {p : ProcId} {act : Action n}

theorem refl : ProcChange s p act (s.procs p) := .idles _ rfl rfl rfl rfl

theorem wakeup (self : Option ProcId) (chan : Option Chan) :
    ProcChange s p act (wakeup self chan s.procs p) := by
  rcases wakeup_cases self chan s.procs p with same | ⟨sleeping, woken⟩
  · rw [same]
    exact refl
  · rw [woken]
    exact .wakes _ sleeping rfl rfl rfl rfl

/-- `exit` leaves the others as they are, or wakes them. -/
theorem orphan (initproc p' : ProcId) : ProcChange s p act (orphan initproc p' s.procs p) := by
  rcases orphan_cases initproc p' s.procs p with same | ⟨sleeping, woken⟩
  · rw [same]
    exact .idles _ rfl rfl rfl rfl
  · rw [woken]
    exact .wakes _ sleeping rfl rfl rfl rfl

theorem schedStep (step : SchedStep s c s') : ProcChange s p (.scheduler c) (s'.procs p) := by
  have kept := schedStep_kept step p
  have updated : ∀ {p' : ProcId} {x : Proc}, (p = p' → ProcChange s p (.scheduler c) x) →
      ProcChange s p (.scheduler c) (update s.procs p' x p) := by
    intro p' x changed
    by_cases same : p = p'
    · subst same
      rw [update_self]
      exact changed rfl
    · rw [update_of_ne same]
      exact refl
  cases step with
  | moves => exact refl
  | pushes => exact refl
  | drops _ _ usage _ contents has late =>
    refine updated fun same => ?_
    subst same
    exact .drops usage (by simp [contents]) has late
  | chooses _ _ usage _ contents has early =>
    refine updated fun same => ?_
    subst same
    exact .chooses usage (by simp [contents]) has early
  | unparks => exact refl
  | enters _ src _ _ _ choosing same =>
    refine updated fun equal => ?_
    subst equal
    simp only [setCpu_procs, setProc_procs, update_self] at kept
    exact .enters src _ choosing same.state kept
  | rests _ src _ choosing _ threaded stuck =>
    refine updated fun equal => ?_
    subst equal
    simp only [setCpu_procs, setProc_procs, update_self] at kept
    exact .rests src _ choosing rfl kept threaded stuck
  | faults _ src choosing =>
    refine updated fun equal => ?_
    subst equal
    exact .enters src _ choosing rfl ⟨rfl, rfl, rfl, rfl, rfl⟩
  | stops => exact refl

end ProcChange

namespace Kernel.Inv

variable {s s' : Kernel n} {c : Fin n} {p p' : ProcId} {t : Option ThreadId}

variable {act : ProcAction}

/-- A step in which the executing process `p` changes one other process. -/
theorem pairChange (inv : s.Inv) {i : ProcId} {nextpid : Int}
    (runs : s.executing c = some (p, t)) (off : (s.procs i).state.off)
    (pre : (s.procs p).context ≠ .trapYield) (after : cont ≠ .trapYield)
    (changed : ProcChange s i (.proc c act) y) :
    ProcChange s p' (.proc c act)
      ((({ s with nextpid := nextpid }.setProc i y).setCont p cont).procs p') := by
  have ne : p ≠ i := by
    rintro rfl
    rw [inv.running_not_off (exec_running runs).1] at off
    cases off
  rw [setCont_procs]
  split_ifs with same
  · subst same
    simp only [setProc_procs, update_of_ne ne]
    exact .own _ runs rfl pre after rfl rfl
  by_cases same : p' = i
  · subst same
    rwa [setProc_procs, update_self]
  · rw [setProc_procs, update_of_ne same]
    exact .refl

/-- `sched`, called by the executing process with the record `x`. -/
theorem schedChange (runs : s.executing c = some (p, t))
    (stopped : x.state = .runnable ∨ (x.state = .sleeping ∧ act.sleepCall ∧
      s.givesUp p act)) (context : x.context ≠ .trapYield)
    (usage : x.usageTime = (s.procs p).usageTime) (pid : x.pid = (s.procs p).pid) :
    ProcChange s p' (.proc c act) ((s.sched c p t x).procs p') := by
  have notRunning : x.state ≠ .running := by
    rcases stopped with state | ⟨state, _⟩ <;> rw [state] <;> simp
  rcases sched_entry s c p t notRunning p' with kept | ⟨rfl, fixed⟩
  · rw [kept]
    exact .refl
  refine .gives x _ runs ?_ context usage pid fixed
  rcases stopped with runnable | sleeping
  · exact .inl runnable
  · exact .inr (.inl sleeping)

theorem procStep_change (inv : s.Inv)
    (runs : s.executing c = some (p, t)) (step : ProcStep s p act effect) :
    ProcChange s p' (.proc c act) ((s.finish c p t effect).procs p') := by
  have running := (exec_running runs).1
  have notTrap : (s.procs p).context.plain → (s.procs p).context ≠ .trapYield := by
    intro plain trap
    rw [trap] at plain
    cases plain
  have afterNotTrap : ∀ {cont : Cont}, cont.plain → cont ≠ .trapYield := by
    rintro cont plain rfl
    cases plain
  have alone : ∀ {x : Proc}, ProcChange s p (.proc c act) x →
      ProcChange s p' (.proc c act) ((s.setProc p x).procs p') := by
    intro x changed
    by_cases same : p' = p
    · subst same
      rwa [Kernel.setProc_procs, update_self]
    · rw [Kernel.setProc_procs, update_of_ne same]
      exact .refl
  cases step with
  | moves _ pre after =>
    exact alone (.own _ runs rfl (notTrap pre) (afterNotTrap after) rfl rfl)
  | own x change =>
    exact alone (.own x runs change.state (notTrap change.pre)
      (afterNotTrap change.after) change.limits change.pid)
  | expired usage _ has late => exact alone (.expired usage runs has late)
  | taken deadline _ frame searching free framed =>
    exact inv.pairChange runs (by rw [free]; rfl) (by simp [searching]) (by simp)
      (.taken deadline frame runs searching free framed)
  | refused _ _ searching free =>
    exact inv.pairChange runs (by rw [free]; rfl) (by simp [searching]) (by simp)
      (.freed (.inl free))
  | forkParent _ np forking =>
    have used : (s.procs np).state = .used := inv.forks.used p np (by rw [forking]; rfl)
    exact inv.pairChange runs (by rw [used]; rfl) (by simp [forking]) (by simp)
      (.idles _ rfl rfl rfl rfl)
  | forkRunnable deadline np y forking readied =>
    have used : (s.procs np).state = .used := inv.forks.used p np (by rw [forking]; rfl)
    exact inv.pairChange runs (by rw [used]; rfl) (by simp [forking]) (by simp)
      (.readies deadline y used readied)
  | reaps _ found waiting =>
    have zombie := (firstZombie_spec found).2
    refine inv.pairChange runs (by rw [zombie]; rfl) ?_ (by simp) (.freed (.inr zombie))
    rcases waiting with context | context <;> simp [context]
  | kills pid index killing hit =>
    have pre : (s.procs p).context ≠ .trapYield := by simp [killing]
    by_cases same : index = p
    · subst same
      have state := inv.fits_running running pre
      simp only [Kernel.finish, Kernel.setCont, Kernel.setProc_procs, update_self,
        update_idem, killProc, state]
      exact alone (.own _ runs state.symm pre (by simp) rfl rfl)
    simp only [Kernel.finish]
    rw [setCont_procs]
    split_ifs with equal
    · subst equal
      simp only [Kernel.setProc_procs, update_of_ne (Ne.symm same)]
      exact .own _ runs rfl pre (by simp) rfl rfl
    by_cases equal : p' = index
    · subst equal
      rw [Kernel.setProc_procs, update_self]
      by_cases sleeping : (s.procs p').state = .sleeping
      · exact .wakes _ sleeping (by simp [killProc, sleeping]) rfl rfl rfl
      · exact .idles _ (by simp [killProc, sleeping]) rfl rfl rfl
    · rw [Kernel.setProc_procs, update_of_ne equal]
      exact .refl
  | storesQuota quota target usage storing has =>
    simp only [Kernel.finish]
    rw [setCont_procs]
    by_cases equal : p' = target
    · subst equal
      split_ifs with same
      · subst same
        rw [Kernel.setProc_procs, update_self]
        exact .stores quota usage _ runs storing has rfl (.inr rfl) rfl rfl
      · rw [Kernel.setProc_procs, update_self]
        exact .stores quota usage _ runs storing has rfl (.inl rfl) rfl rfl
    split_ifs with same
    · subst same
      rw [Kernel.setProc_procs, update_of_ne equal]
      exact .own _ runs rfl (by simp [storing]) (by simp) rfl rfl
    · rw [Kernel.setProc_procs, update_of_ne equal]
      exact .refl
  | yields _ _ _ after => exact schedChange runs (.inl rfl) after rfl rfl
  | sleeps _ _ gives sleepCall _ after =>
    exact schedChange runs (.inr ⟨rfl, sleepCall, gives⟩) (afterNotTrap after) rfl rfl
  | exits status atKernel notInit =>
    rcases exit_entry c t status notInit p' with kept | ⟨rfl, fixed⟩
    · rw [kept]
      exact .orphan _ _
    · exact .gives _ _ runs (.inr (.inr ⟨rfl, status, rfl⟩)) (by simp [atKernel]) (by simp)
        (by simp) fixed
  | panics => exact .refl

/-- Every step of the kernel changes a process in one of the listed ways. -/
theorem step_change (inv : s.Inv) {act : Action n} (ran : s.step act = some s')
    (p : ProcId) : ProcChange s p act (s'.procs p) := by
  cases step_cases ran with
  | scheduler step => exact .schedStep step
  | tick => exact .refl
  | wakes => exact .wakeup _ _
  | proc runs step => exact inv.procStep_change runs step

/-- The heap key of a process that waits to be dispatched does not change. -/
theorem step_key (inv : s.Inv) {act : Action n} (ran : s.step act = some s')
    (waiting : (s.procs p).state.off = false) (idle : ∀ c, (s.cpus c).proc ≠ some p) :
    (s'.procs p).key = (s.procs p).key := by
  have changed := inv.step_change ran p
  have isOff : ∀ {state : ProcState}, (s.procs p).state = state → state.off → False := by
    rintro _ rfl off
    rw [waiting] at off
    cases off
  have notExecuting : ∀ {c : Fin n} {t : Option ThreadId}, s.executing c ≠ some (p, t) :=
    fun runs => idle _ (exec_running runs).1
  generalize s'.procs p = y at changed ⊢
  cases changed with
  | idles _ _ _ usage => rw [Proc.key, usage, Proc.key]
  | wakes _ sleeping => exact (isOff sleeping rfl).elim
  | readies _ _ used => exact (isOff used rfl).elim
  | taken _ _ _ _ free => exact (isOff free rfl).elim
  | freed off => rcases off with state | state <;> exact (isOff state rfl).elim
  | stores _ _ _ _ _ has _ _ stored =>
    rw [Proc.key, stored, Proc.key, has]
    rfl
  | drops => rfl
  | chooses => rfl
  | enters _ _ _ _ kept => exact kept.key
  | rests _ _ _ _ kept => exact kept.key
  | own _ runs => exact absurd runs notExecuting
  | expired _ runs => exact absurd runs notExecuting
  | gives _ _ runs => exact absurd runs notExecuting

end Kernel.Inv

/-! ### Deadlines -/

/-- A process in one of these states can go on executing. -/
def ProcState.live : ProcState → Bool
  | .sleeping => true
  | .runnable => true
  | .running => true
  | .passedQuota => true
  | .chosenToRun => true
  | _ => false

/-- A live process keeps its deadline. -/
theorem ProcChange.expired_eq (changed : ProcChange s p act y)
    (live : (s.procs p).state.live) (ticks : UInt32) :
    y.expired ticks = (s.procs p).expired ticks := by
  have ofDeadline : ∀ {x : Proc}, x.usageTime.map CpuUsage.deadline =
      (s.procs p).usageTime.map CpuUsage.deadline →
      x.expired ticks = (s.procs p).expired ticks := by
    intro x deadline
    have viaDeadline : ∀ z : Proc, z.expired ticks =
        (z.usageTime.map CpuUsage.deadline).any fun deadline => decide (deadline ≤ ticks) := by
      intro z
      rw [Proc.expired]
      cases z.usageTime <;> rfl
    rw [viaDeadline, viaDeadline, deadline]
  have notLive : ∀ {state : ProcState}, (s.procs p).state = state → state.live = false → False := by
    rintro _ rfl dead
    rw [live] at dead
    cases dead
  cases changed with
  | idles _ _ _ usage => exact ofDeadline (by rw [usage])
  | wakes _ _ _ _ usage => exact ofDeadline (by rw [usage])
  | readies _ _ used => exact (notLive used rfl).elim
  | taken _ _ _ _ free => exact (notLive free rfl).elim
  | freed off => rcases off with state | state <;> exact (notLive state rfl).elim
  | stores _ _ _ _ _ has _ _ stored =>
    exact ofDeadline (by rw [stored, has]; rfl)
  | drops => rfl
  | chooses => rfl
  | enters _ _ _ _ kept =>
    have deadline := congrArg (Option.map fun entry => entry.2.2) kept.usage
    exact ofDeadline (by simpa [Function.comp_def] using deadline)
  | rests _ _ _ _ kept =>
    have deadline := congrArg (Option.map fun entry => entry.2.2) kept.usage
    exact ofDeadline (by simpa [Function.comp_def] using deadline)
  | own _ _ _ _ _ limits =>
    have deadline := congrArg (Option.map Prod.snd) limits
    exact ofDeadline (by simpa [Function.comp_def] using deadline)
  | expired _ _ has =>
    exact ofDeadline (by rw [has]; rfl)
  | gives _ _ _ _ _ usage _ fixed =>
    obtain ⟨_, has, _, after⟩ := fixed.usage
    have deadline := congrArg (Option.map fun entry => entry.2.2) after
    refine ofDeadline ?_
    rw [← usage, has]
    simpa [Function.comp_def] using deadline

end CustomXv6

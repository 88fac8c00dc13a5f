/-
Module: CustomXv6.Kernel.Partition
Purpose: A process is in one place, on one CPU or once in one of the queues, and has its own pid.
Trusted boundary: none
Main exports: cpu_exclusive, readyStructures_partition, pids_unique
-/
import CustomXv6.Kernel.Frame

namespace CustomXv6

open Transition
open Function

variable {n : Nat}

/-!
`yield` and `sleep` store a new `p->state`, and the scheduler they return to is meant to take
the process off its CPU.  If another thread of the process is runnable, the thread loop
switches to it instead, without setting `p->state` back to `RUNNING`.
-/

/-- No process runs on two CPUs, and a process that runs is `RUNNING`. -/
structure Kernel.CpuExclusive (s : Kernel n) : Prop where
  unique : ∀ p c c', (s.cpus c).proc = some p → (s.cpus c').proc = some p → c = c'
  running : ∀ p c, (s.cpus c).proc = some p → (s.procs p).state = .running

/-- The process of CPU `c` enters the kernel after its deadline and goes on as `DROPPED`. -/
def Kernel.trapsLate (s : Kernel n) : Action n → Bool
  | .proc c .usertrap =>
    match s.executing c with
    | some (p, _) => (s.procs p).expired s.ticks
    | none => false
  | _ => false

/-- No process is between the deadline test of `usertrap` and its `yield`. -/
def Kernel.NoLateTrap (s : Kernel n) : Prop := ∀ p, (s.procs p).context ≠ .trapYield

variable {s s' : Kernel n}

/-- Only a trap after the deadline brings a process into that gap. -/
theorem Kernel.Inv.noLateTrap_step {act : Action n} (inv : s.Inv)
    (noTrap : s.NoLateTrap) (inTime : s.trapsLate act = false)
    (ran : s.step act = some s') : s'.NoLateTrap := by
  intro p
  have changed := inv.step_change ran p
  generalize s'.procs p = y at changed ⊢
  cases changed with
  | idles _ _ context =>
    rw [context]
    exact noTrap p
  | wakes _ _ _ context =>
    rw [context]
    exact noTrap p
  | readies _ _ _ readied =>
    rw [readied.facts.2.1]
    exact noTrap p
  | taken => simp [newProc]
  | freed => exact noTrap p
  | stores _ _ _ _ _ _ _ context =>
    rcases context with same | kernel
    · rw [same]
      exact noTrap p
    · simp [kernel]
  | drops => exact noTrap p
  | chooses => exact noTrap p
  | enters _ _ _ _ kept =>
    rw [kept.context]
    exact noTrap p
  | rests _ _ _ _ kept =>
    rw [kept.context]
    exact noTrap p
  | own _ _ _ _ after => exact after
  | expired _ runs has late => simp [Kernel.trapsLate, Proc.expired, runs, has, late] at inTime
  | gives _ _ _ _ context _ _ fixed =>
    rw [fixed.context]
    exact context

theorem boot_noLateTrap : (boot n).NoLateTrap := by
  intro p
  simp only [boot]
  split <;> simp [initcodeProc]

/-- CPU exclusivity.  In every run in which the thread loop never goes on to a second thread
and no process traps after its deadline, a process executes on at most one CPU, and in state
`RUNNING`. -/
theorem cpu_exclusive (n : Nat) (s : Kernel n) (run : Run Kernel.step
      (fun s act => s.reenters act = false ∧ s.trapsLate act = false) (boot n) s) :
    s.CpuExclusive := by
  obtain ⟨inv, noTrap⟩ : s.Inv ∧ s.NoLateTrap :=
    run.invariant (P := fun s => s.Inv ∧ s.NoLateTrap) ⟨boot_inv, boot_noLateTrap⟩
      fun kept legal ran =>
        ⟨kept.1.step legal.1 ran, kept.1.noLateTrap_step kept.2 legal.2 ran⟩
  refine ⟨fun p c c' here there => ?_, fun p c here => inv.fits_running here (noTrap p)⟩
  cases inv.unique p (.cpu c) (.cpu c') here there
  rfl

/-- The first process becomes threaded: it enters the kernel, creates a thread
and gives up the CPU. -/
def threadedRun (c : Fin n) : List (Action n) :=
  traps c ++ [.proc c (.createThread 64 7 4096 true true), .proc c .preempt]

/-- After CPU 0 has run a process that became threaded, CPU 1 runs its first
thread. -/
theorem cpu_exclusive_two_cpus :
    ∃ s : Kernel 2, Run Kernel.step
      (fun s act => s.reenters act = false ∧ s.trapsLate act = false) (boot 2) s ∧
        (s.cpus 1).proc = some 0 ∧ s.CpuExclusive := by
  obtain ⟨s, run, here⟩ := exists_run_of_runChecked Kernel.step
    (fun s act => s.reenters act = false ∧ s.trapsLate act = false) (boot 2) (threadedRun 0 ++ pass 1)
    (P := fun s => (s.cpus 1).proc = some 0) (by decide +kernel)
  exact ⟨s, run, here, cpu_exclusive 2 s run⟩

/-- The first process sets its own quota to 0, becomes threaded and is parked
in the quota queue. -/
def parkedRun (c : Fin n) : List (Action n) :=
  traps c ++ zeroQuota c ++ [.proc c (.createThread 64 7 4096 true true), .proc c .preempt]

/-- The thread loop switches to a second thread.  The process then executes as `RUNNABLE`, and
CPU 1 puts it into the heap.  If its quota is used up, it executes as `PASSED_QUOTA` and CPU 1
runs it as well.  A process that traps after its deadline executes as `DROPPED`. -/
theorem executing_process_not_exclusive :
    (∃ s : Kernel 2, Run Kernel.step (fun _ _ => True) (boot 2) s ∧
      (s.cpus 0).proc = some 0 ∧ (s.procs 0).state = .runnable ∧ s.pq.holds 0) ∧
    (∃ s : Kernel 2, Run Kernel.step (fun _ _ => True) (boot 2) s ∧
      (s.cpus 0).proc = some 0 ∧ (s.cpus 1).proc = some 0) ∧
    ∃ s : Kernel 2, Run Kernel.step (fun _ _ => True) (boot 2) s ∧
      (s.cpus 1).proc = some 1 ∧ (s.procs 1).state = .dropped := by
  refine ⟨?_, ?_, ?_⟩
  · exact exists_run_of_runFrom _ _ (threadedRun 0 ++ pass 0 ++ [.proc 0 .preempt, .scheduler 1])
      (by decide +kernel)
  · exact exists_run_of_runFrom _ _ (parkedRun 0 ++ parkedPass 0 ++ [.proc 0 .preempt] ++
      parkedPass 1) (by decide +kernel)
  exact exists_run_of_runFrom _ _ (traps 0 ++ forkOne 0 (some 1) ++ pass 1 ++
      [.proc 1 .usertrapret, .clockintr 0, .proc 1 .usertrap]) (by decide +kernel)

/-! ### The quota queue -/

/-- Quota queue sanity.  In every run in which the thread loop never goes on
to a second thread, the quota queue holds each process at most once and only
processes in state `PASSED_QUOTA`. -/
theorem quotaQueue_sane (n : Nat) (s : Kernel n)
    (run : Run Kernel.step (fun s act => s.reenters act = false) (boot n) s) :
    s.q.toList.Nodup ∧ ∀ p ∈ s.q.toList, (s.procs p).state = .passedQuota := by
  have inv := reached_inv run
  exact ⟨inv.queueNodup, fun p mem => inv.fits p .queue mem⟩

theorem quotaQueue_sane_parked :
    ∃ s : Kernel 1, Run Kernel.step (fun s act => s.reenters act = false) (boot 1) s ∧
      s.q.toList = [0] ∧ s.q.toList.Nodup ∧
        ∀ p ∈ s.q.toList, (s.procs p).state = .passedQuota := by
  obtain ⟨s, run, parked⟩ := exists_run_of_runChecked Kernel.step
    (fun s act => s.reenters act = false) (boot 1) (parkedRun 0)
    (P := fun s => s.q.toList = [0]) (by decide +kernel)
  exact ⟨s, run, parked, quotaQueue_sane 1 s run⟩

/-- One pass takes a threaded process from the quota queue.  Its first thread yields, the
process is parked again, and the thread loop goes on: if the second thread sleeps, the queue
holds a `SLEEPING` process; if it yields, it holds the process twice. -/
theorem quotaQueue_corrupted_by_threads :
    (∃ s : Kernel 1, Run Kernel.step (fun _ _ => True) (boot 1) s ∧
      s.q.toList = [0] ∧ (s.procs 0).state = .sleeping) ∧
    ∃ s : Kernel 1, Run Kernel.step (fun _ _ => True) (boot 1) s ∧ s.q.toList = [0, 0] := by
  constructor
  · exact exists_run_of_runFrom _ _ (parkedRun 0 ++ parkedPass 0 ++
        [.proc 0 .preempt, .proc 0 (.sleep .ticks)]) (by decide +kernel)
  · exact exists_run_of_runFrom _ _ (parkedRun 0 ++ parkedPass 0 ++
        [.proc 0 .preempt, .proc 0 .preempt]) (by decide +kernel)

/-- The step is a call of `create_thread`, `join_thread` or `exit_thread`. -/
def Action.threadCall : Action n → Bool
  | .proc _ act => act.threadCall
  | _ => false

/-- No process has threads, so no scheduler is inside its thread loop. -/
structure Kernel.Unthreaded (s : Kernel n) : Prop where
  procs : ∀ p, (s.procs p).currentThread = none
  cpus : ∀ c t, (s.cpus c).pc = .swtched t → t = none

theorem boot_unthreaded : (boot n).Unthreaded := by
  refine ⟨fun p => ?_, nofun⟩
  simp only [boot]
  split <;> rfl

variable {act : Action n} {pc : SchedPc}

namespace Kernel.Unthreaded

variable {s s' : Kernel n} {c : Fin n} {p : ProcId}

variable (single : s.Unthreaded)
include single

variable {x : Proc}

/-- Replacing one process and one CPU. -/
theorem update {cpu : Cpu} (proc : x.currentThread = none)
    (pc : ∀ t, cpu.pc = .swtched t → t = none) : ((s.setProc p x).setCpu c cpu).Unthreaded := by
  refine ⟨fun p' => ?_, fun c' t swtched => ?_⟩
  · rw [Kernel.setCpu_procs, Kernel.setProc_procs, update_apply]
    split
    · exact proc
    · exact single.procs p'
  · rw [Kernel.setCpu_cpus, update_apply] at swtched
    split at swtched
    · exact pc t swtched
    · exact single.cpus c' t swtched

theorem setProc (proc : x.currentThread = none) : (s.setProc p x).Unthreaded := by
  refine ⟨fun p' => ?_, single.cpus⟩
  rw [Kernel.setProc_procs, update_apply]
  split
  · exact proc
  · exact single.procs p'

theorem setPc (after : ∀ t, pc ≠ .swtched t) : (s.setPc c pc).Unthreaded := by
  refine ⟨single.procs, fun c' t swtched => ?_⟩
  rw [Kernel.setPc, Kernel.setCpu_cpus, update_apply] at swtched
  split at swtched
  · exact absurd swtched (after t)
  · exact single.cpus c' t swtched

theorem schedStep (step : SchedStep s c s') : s'.Unthreaded := by
  cases step with
  | moves _ _ _ after =>
    refine single.setPc fun t swtched => ?_
    rw [swtched] at after
    cases after
  | pushes _ pq _ _ _ _ _ after =>
    refine Kernel.Unthreaded.setPc (s := { s with pq := pq })
      ⟨single.procs, single.cpus⟩ fun t swtched => ?_
    rcases after with ⟨_, pcEq⟩ | pcEq <;> cases pcEq.symm.trans swtched
  | drops p pq =>
    exact Kernel.Unthreaded.setProc (s := { s with pq := pq })
      ⟨single.procs, single.cpus⟩ (single.procs p)
  | chooses p pq =>
    refine Kernel.Unthreaded.setPc ?_ (by simp)
    exact Kernel.Unthreaded.setProc (s := { s with pq := pq })
      ⟨single.procs, single.cpus⟩ (single.procs p)
  | unparks _ q =>
    exact Kernel.Unthreaded.setPc (s := { s with q := q })
      ⟨single.procs, single.cpus⟩ (by simp)
  | enters p _ t _ _ _ _ _ plain =>
    obtain ⟨rfl, rfl⟩ := plain (single.procs p)
    refine single.update (single.procs p) fun t swtched => ?_
    cases swtched
    rfl
  | rests p _ _ _ _ threaded => exact absurd (single.procs p) threaded
  | faults p _ _ threaded => exact absurd (single.procs p) threaded
  | stops => exact single.setPc (by simp)

theorem sched (proc : x.currentThread = none) : (s.sched c p none x).Unthreaded := by
  have returned := sched_cases s c p none x
  generalize s.sched c p none x = s' at returned ⊢
  cases returned with
  | panics => exact single.setPc (by simp)
  | leaves _ state y _ _ _ kept =>
    refine Kernel.Unthreaded.update (s := { s with q := s.limitedQueue p x.state state })
      ⟨single.procs, single.cpus⟩ ?_ (by simp)
    have cur : y.currentThread = none := by
      rw [kept rfl]
      exact proc
    split <;> exact cur
  | reenters _ _ _ _ _ _ _ threaded => cases threaded

theorem procStep {act : ProcAction} {effect : Effect n} (step : ProcStep s p act effect)
    (plain : act.threadCall = false) : (s.finish c p none effect).Unthreaded := by
  have pair : ∀ {i : ProcId} {y : Proc} {cont : Cont} {nextpid : Int},
      y.currentThread = none →
      (({ s with nextpid := nextpid }.setProc i y).setCont p cont).Unthreaded := by
    intro i y _ nextpid other
    have first : ({ s with nextpid := nextpid }.setProc i y).Unthreaded :=
      Kernel.Unthreaded.setProc (s := { s with nextpid := nextpid })
        ⟨single.procs, single.cpus⟩ other
    exact first.setProc (first.procs p)
  cases step with
  | moves => exact single.setProc (single.procs p)
  | own _ _ threads => exact single.setProc ((threads plain).trans (single.procs p))
  | expired => exact single.setProc (single.procs p)
  | taken => exact pair rfl
  | refused => exact pair rfl
  | forkParent _ np => exact pair (single.procs np)
  | forkRunnable deadline np y _ readied =>
    refine pair ?_
    cases deadline with
    | none =>
      rw [show y = _ from readied]
      exact single.procs np
    | some =>
      obtain ⟨_, _, rfl⟩ := readied
      exact single.procs np
  | reaps => exact pair rfl
  | kills _ index => exact pair (single.procs index)
  | storesQuota _ target => exact pair (single.procs target)
  | yields => exact single.sched (single.procs p)
  | sleeps => exact single.sched (single.procs p)
  | exits _ _ notInit =>
    rw [Kernel.exit, if_neg notInit]
    refine Kernel.Unthreaded.sched (s := { s with procs := orphan s.initproc p s.procs })
      ⟨fun p' => ?_, single.cpus⟩ ?_
    · simpa using single.procs p'
    · simpa using single.procs p
  | panics => exact single.setPc (by simp)

/-- Without threads the thread loop never goes on to a second thread. -/
theorem leavesCpu (act : Action n) : s.reenters act = false := by
  cases act with
  | proc c _ =>
    rw [Kernel.reenters]
    split
    · rename_i p t runs
      cases single.cpus c _ (exec_running runs).2
    · rfl
  | _ => rfl

theorem step (plain : act.threadCall = false) (ran : s.step act = some s') : s'.Unthreaded := by
  cases step_cases ran with
  | scheduler step => exact single.schedStep step
  | tick => exact ⟨single.procs, single.cpus⟩
  | wakes => exact ⟨fun p => by simpa using single.procs p, single.cpus⟩
  | proc runs step =>
    cases single.cpus _ _ (exec_running runs).2
    exact single.procStep step plain

end Kernel.Unthreaded

/-- Runs without thread calls never re-enter a process. -/
theorem unthreaded_run
    (run : Run Kernel.step (fun _ act => act.threadCall = false) (boot n) s) :
    s.Unthreaded ∧ Run Kernel.step (fun s act => s.reenters act = false) (boot n) s := by
  induction run with
  | refl => exact ⟨boot_unthreaded, .refl⟩
  | tail _ plain ran ih =>
    exact ⟨ih.1.step plain ran, ih.2.tail (ih.1.leavesCpu _) ran⟩

/-! ### The heap never overflows -/

/-- No CPU has stopped in `panic("Priority queue overflow")`. -/
def Kernel.NoOverflow (s : Kernel n) : Prop := ∀ c, (s.cpus c).pc ≠ .panicked .pqOverflow

/-- A heap without duplicates that misses a process has room for it. -/
theorem Kernel.Inv.heap_room (inv : s.Inv) {p : ProcId} (absent : p ∉ s.pq.procs) :
    s.pq.size < nproc := by
  have smaller := Finset.card_lt_univ_of_notMem (s := s.pq.procs.toFinset)
    (x := p) (by simpa using absent)
  rwa [Multiset.toFinset_card_of_nodup inv.heapNodup, PriorityQueue.card_procs,
    Fintype.card_fin] at smaller

theorem Kernel.NoOverflow.setPc {c : Fin n} (room : s.NoOverflow)
    (after : pc ≠ .panicked .pqOverflow) : (s.setPc c pc).NoOverflow := by
  intro c'
  rw [Kernel.setPc, Kernel.setCpu_cpus, update_apply]
  split
  · exact after
  · exact room c'

theorem Kernel.Inv.noOverflow_schedStep {c : Fin n} (inv : s.Inv)
    (room : s.NoOverflow) (step : SchedStep s c s') : s'.NoOverflow := by
  have entered : ∀ {x : Proc} {p : ProcId} {cpu : Cpu}, cpu.pc ≠ .panicked .pqOverflow →
      ((s.setProc p x).setCpu c cpu).NoOverflow := by
    intro x p _ after c'
    rw [Kernel.setCpu_cpus, update_apply]
    split
    · exact after
    · exact room c'
  cases step with
  | moves _ _ _ _ _ overflow =>
    refine room.setPc fun panicked => ?_
    obtain ⟨full, _, absent⟩ := overflow panicked
    exact absurd (inv.heap_room absent) (Nat.not_lt.mpr full)
  | pushes _ pq _ _ _ _ _ after =>
    refine Kernel.NoOverflow.setPc (s := { s with pq := pq }) room ?_
    rcases after with ⟨_, rfl⟩ | rfl <;> simp
  | drops => exact room
  | chooses =>
    refine Kernel.NoOverflow.setPc ?_ (by simp)
    exact room
  | unparks _ q => exact Kernel.NoOverflow.setPc (s := { s with q := q }) room (by simp)
  | enters => exact entered (by simp)
  | rests => exact entered (by simp)
  | faults => exact entered (by simp)
  | stops => exact room.setPc (by simp)

theorem Kernel.Inv.noOverflow_step (inv : s.Inv) (room : s.NoOverflow)
    (ran : s.step act = some s') : s'.NoOverflow := by
  intro c
  rcases step_cpus ran c with same | ⟨_, step⟩ | freed
  · rw [same]
    exact room c
  · exact inv.noOverflow_schedStep room step c
  intro panicked
  generalize s'.cpus c = cpu at freed panicked
  cases freed with
  | left => cases panicked
  | reentered => cases panicked
  | stopped _ _ noOverflow =>
    cases panicked
    exact noOverflow rfl

/-! ### The partition -/

/-- The number of CPUs that have chosen `p` and not dispatched it. -/
def Kernel.chosenCount (s : Kernel n) (p : ProcId) : Nat :=
  (Finset.univ.filter fun c => (s.cpus c).pc = .chosen p .pq ∨ (s.cpus c).pc = .chosen p .q).card

def Kernel.runCount (s : Kernel n) (p : ProcId) : Nat :=
  (Finset.univ.filter fun c => (s.cpus c).proc = some p).card

/-- The ready structures partition the processes, and neither of the two
shared ones can overflow. -/
structure Kernel.Partition (s : Kernel n) : Prop where
  once : ∀ p, s.pq.procs.count p + s.q.toList.count p + s.chosenCount p + s.runCount p ≤ 1
  ready : ∀ p ∈ s.pq.procs, (s.procs p).state = .runnable ∧ (s.procs p).usageTime ≠ none
  parked : ∀ p, (s.procs p).state = .passedQuota ↔
    p ∈ s.q.toList ∨ ∃ c, (s.cpus c).pc = .chosen p .q
  enqueues : ∀ c p, (s.cpus c).proc = some p → (enqueue s.q p).1 = 1
  pushes : s.NoOverflow

namespace Kernel.Inv

variable {s : Kernel n} (inv : s.Inv)
include inv

theorem chosenCount_le (p : ProcId) : s.chosenCount p ≤ 1 := by
  refine Finset.card_le_one.mpr fun c first c' second => ?_
  simp only [Finset.mem_filter, Finset.mem_univ, true_and] at first second
  rcases first with first | first <;> rcases second with second | second <;>
    cases inv.unique p (.chosen c _) (.chosen c' _) first second <;> rfl

theorem runCount_le (p : ProcId) : s.runCount p ≤ 1 := by
  refine Finset.card_le_one.mpr fun c first c' second => ?_
  simp only [Finset.mem_filter, Finset.mem_univ, true_and] at first second
  cases inv.unique p (.cpu c) (.cpu c') first second
  rfl

/-- Each of the four counts is positive only in its own place, so at most one
of them is. -/
theorem once (p : ProcId) :
    s.pq.procs.count p + s.q.toList.count p + s.chosenCount p + s.runCount p ≤ 1 := by
  have inHeap := Multiset.nodup_iff_count_le_one.mp inv.heapNodup p
  have inQueue := List.nodup_iff_count_le_one.mp inv.queueNodup p
  have inHand := inv.chosenCount_le p
  have running := inv.runCount_le p
  have heapPlace : 0 < s.pq.procs.count p → s.At p .heap := Multiset.count_pos.mp
  have queuePlace : 0 < s.q.toList.count p → s.At p .queue := List.count_pos_iff.mp
  have handPlace : 0 < s.chosenCount p → ∃ c src, s.At p (.chosen c src) := by
    intro pos
    obtain ⟨c, mem⟩ := Finset.card_pos.mp pos
    rcases (Finset.mem_filter.mp mem).2 with chosen | chosen
    · exact ⟨c, .pq, chosen⟩
    · exact ⟨c, .q, chosen⟩
  have cpuPlace : 0 < s.runCount p → ∃ c, s.At p (.cpu c) := by
    intro pos
    obtain ⟨c, mem⟩ := Finset.card_pos.mp pos
    exact ⟨c, (Finset.mem_filter.mp mem).2⟩
  by_contra several
  have two : (0 < s.pq.procs.count p ∧ 0 < s.q.toList.count p) ∨
      (0 < s.pq.procs.count p ∧ 0 < s.chosenCount p) ∨
      (0 < s.pq.procs.count p ∧ 0 < s.runCount p) ∨
      (0 < s.q.toList.count p ∧ 0 < s.chosenCount p) ∨
      (0 < s.q.toList.count p ∧ 0 < s.runCount p) ∨
      (0 < s.chosenCount p ∧ 0 < s.runCount p) := by omega
  rcases two with ⟨a, b⟩ | ⟨a, b⟩ | ⟨a, b⟩ | ⟨a, b⟩ | ⟨a, b⟩ | ⟨a, b⟩
  · cases inv.unique p _ _ (heapPlace a) (queuePlace b)
  · obtain ⟨_, _, chosen⟩ := handPlace b
    cases inv.unique p _ _ (heapPlace a) chosen
  · obtain ⟨_, runs⟩ := cpuPlace b
    cases inv.unique p _ _ (heapPlace a) runs
  · obtain ⟨_, _, chosen⟩ := handPlace b
    cases inv.unique p _ _ (queuePlace a) chosen
  · obtain ⟨_, runs⟩ := cpuPlace b
    cases inv.unique p _ _ (queuePlace a) runs
  obtain ⟨_, _, chosen⟩ := handPlace a
  obtain ⟨_, runs⟩ := cpuPlace b
  cases inv.unique p _ _ chosen runs

theorem parked_iff (p : ProcId) : (s.procs p).state = .passedQuota ↔
    p ∈ s.q.toList ∨ ∃ c, (s.cpus c).pc = .chosen p .q := by
  constructor
  · intro passed
    obtain ⟨a, atA⟩ := inv.parked p passed
    have fits := inv.fits p a atA
    cases a with
    | heap => cases passed.symm.trans fits
    | queue => exact .inl atA
    | chosen c src =>
      cases src with
      | pq => cases passed.symm.trans fits
      | q => exact .inr ⟨c, atA⟩
    | cpu =>
      rcases fits with running | ⟨dropped, _⟩
      · cases passed.symm.trans running
      · cases passed.symm.trans dropped
  · rintro (queued | ⟨c, chosen⟩)
    · exact inv.fits p .queue queued
    · exact inv.fits p (.chosen c .q) chosen

theorem partition (room : s.NoOverflow) : s.Partition where
  once := inv.once
  ready := by
    intro p mem
    have runnable : (s.procs p).state = .runnable := inv.fits p .heap mem
    exact ⟨runnable, inv.usage p (by simp [runnable])⟩
  parked := inv.parked_iff
  enqueues := by
    intro c p running
    have absent : p ∉ s.q.toList := fun queued => by
      cases inv.unique p (.cpu c) .queue running queued
    exact (enqueue_spec inv.queueValid (inv.queue_room absent) p).1
  pushes := room

end Kernel.Inv

/-- Ready-structure partition.  In every run without thread calls the heap, the quota queue,
the processes chosen but not yet dispatched and the running ones are disjoint; heap entries are
`RUNNABLE` and keep their key; `PASSED_QUOTA` means parked in the quota queue or just taken
from it; and neither structure overflows. -/
theorem readyStructures_partition (n : Nat) (s : Kernel n)
    (run : Run Kernel.step (fun _ act => act.threadCall = false) (boot n) s) :
    s.Partition ∧
      ∀ act s', s.step act = some s' → ∀ p ∈ s.pq.procs, p ∈ s'.pq.procs →
        (s'.procs p).key = (s.procs p).key := by
  obtain ⟨_, leaves⟩ := unthreaded_run run
  have inv := reached_inv leaves
  have room : s.NoOverflow := by
    have initially : (boot n).NoOverflow := fun c => by simp [boot]
    have both : s.Inv ∧ s.NoOverflow :=
      leaves.invariant (P := fun s => s.Inv ∧ s.NoOverflow) ⟨boot_inv, initially⟩
        fun both leavesCpu ran =>
          ⟨both.1.step leavesCpu ran, both.1.noOverflow_step both.2 ran⟩
    exact both.2
  refine ⟨inv.partition room, fun act s' ran p mem _ => ?_⟩
  refine inv.step_key ran (inv.fits p .heap mem).not_off fun c running => ?_
  cases inv.unique p .heap (.cpu c) mem running

/-- The first process forks, uses up its quota and is parked; CPU 1 scans the child. -/
theorem readyStructures_partition_forked :
    ∃ s : Kernel 2, Run Kernel.step (fun _ act => act.threadCall = false) (boot 2) s ∧
      (s.q.toList = [0] ∧ s.pq.holds 1) ∧ s.Partition ∧
        ∀ act s', s.step act = some s' → ∀ p ∈ s.pq.procs, p ∈ s'.pq.procs →
          (s'.procs p).key = (s.procs p).key := by
  obtain ⟨s, run, placed⟩ := exists_run_of_runChecked Kernel.step
    (fun _ act => act.threadCall = false) (boot 2)
    (traps 0 ++ forkOne 0 none ++ zeroQuota 0 ++
      [.proc 0 .preempt, .scheduler 1, .scheduler 1])
    (P := fun s => s.q.toList = [0] ∧ s.pq.holds 1) (by decide +kernel)
  exact ⟨s, run, placed, readyStructures_partition 2 s run⟩

structure Kernel.PidInv (s : Kernel n) : Prop where
  used : ∀ p, (s.procs p).state ≠ .unused → 0 < (s.procs p).pid
  free : ∀ p, (s.procs p).state = .unused → (s.procs p).pid = 0
  bound : ∀ p, (s.procs p).pid < s.nextpid
  unique : ∀ p p', (s.procs p).pid = (s.procs p').pid → (s.procs p).pid ≠ 0 → p = p'

theorem boot_pidInv : (boot n).PidInv := by
  have pids : ∀ p, ((boot n).procs p).pid = if p = 0 then 1 else 0 := by
    intro p
    simp only [boot]
    split <;> rfl
  refine ⟨fun p inUse => ?_, fun p unused => ?_, fun p => ?_, fun p p' same pos => ?_⟩
  · rw [pids]
    split
    · decide
    · rename_i other
      simp [boot, other] at inUse
  · rw [pids]
    split
    · rename_i first
      simp [boot, first, initcodeProc] at unused
    · rfl
  · rw [pids]
    split <;> simp [boot]
  rw [pids, pids] at same
  rw [pids] at pos
  by_cases first : p = 0
  · by_cases first' : p' = 0
    · rw [first, first']
    · simp [first, first'] at same
  · simp [first] at pos

/-- How a step can change the identity of a process. -/
inductive Identity (s s' : Kernel n) (p : ProcId) : Action n → Prop where
  | kept {act : Action n} (pid : (s'.procs p).pid = (s.procs p).pid)
      (use : (s'.procs p).state = .unused ↔ (s.procs p).state = .unused) : Identity s s' p act
  | taken {c : Fin n} {p' : ProcId} {t : Option ThreadId} (deadline : Option UInt32)
      (executes : s.executing c = some (p', t))
      (searching : (s.procs p').context = .allocproc deadline p)
      (pid : (s'.procs p).pid = s.nextpid) (use : (s'.procs p).state ≠ .unused)
      (counted : s'.nextpid = s.nextpid + 1) : Identity s s' p (.proc c (.allocproc true))
  | freed {act : Action n} (pid : (s'.procs p).pid = 0)
      (use : (s'.procs p).state = .unused) : Identity s s' p act

/-- `sched` does not free the process that calls it. -/
theorem Proc.Settled.in_use {clock : Nat → UInt32} {ticks : UInt32} {x y : Proc}
    (fixed : x.Settled clock ticks y) (inUse : x.state ≠ .unused) : y.state ≠ .unused := by
  obtain ⟨_, _, lim, _⟩ := fixed.usage
  intro unused
  rw [unused] at lim
  generalize x.state = pre at lim inUse
  cases lim with
  | untested => exact inUse rfl

theorem Kernel.Inv.step_identity (inv : s.Inv) (ran : s.step act = some s') (p : ProcId) :
    Identity s s' p act := by
  have changed := inv.step_change ran p
  generalize afterEq : s'.procs p = y at changed
  have kept : y.pid = (s.procs p).pid → (y.state = .unused ↔ (s.procs p).state = .unused) →
      Identity s s' p act := by
    intro pid use
    subst afterEq
    exact .kept pid use
  have stays : y.pid = (s.procs p).pid → y.state ≠ .unused → (s.procs p).state ≠ .unused →
      Identity s s' p act :=
    fun pid after pre => kept pid (iff_of_false after pre)
  cases changed with
  | idles _ state _ _ pid => exact kept pid (by rw [state])
  | wakes _ sleeping state _ _ pid =>
    exact stays pid (by simp [state]) (by simp [sleeping])
  | readies deadline _ used readied =>
    refine stays ?_ (by simp [readied.facts.1]) (by simp [used])
    cases deadline with
    | none => rw [show y = _ from readied]
    | some =>
      obtain ⟨_, _, rfl⟩ := readied
      rfl
  | @taken _ p' _ deadline frame runs searching free framed =>
    refine .taken deadline runs searching (by rw [afterEq]; rfl)
      (by rw [afterEq]; simp [newProc]) ?_
    have res : s' = (({ s with nextpid := s.nextpid + 1 }.setProc p
        (newProc s.nextpid frame (s.procs p))).setCont p' (.forkParent deadline p)) := by
      simp [Kernel.step, runs, Kernel.procAction, searching, Kernel.allocproc, free, framed,
        Kernel.finish] at ran
      exact ran.2.symm
    rw [res]
    rfl
  | freed => exact .freed (by rw [afterEq]; rfl) (by rw [afterEq]; rfl)
  | stores _ _ _ _ _ _ state _ _ pid =>
    exact kept pid (by rw [state])
  | drops _ popped => exact stays rfl (by simp) (inv.in_use (a := .heap) popped)
  | chooses _ popped => exact stays rfl (by simp) (inv.in_use (a := .heap) popped)
  | enters src _ choosing state kept =>
    exact stays kept.pid (by simp [state]) (inv.in_use (a := .chosen _ src) choosing)
  | rests src _ choosing state kept =>
    exact stays kept.pid (by simp [state]) (inv.in_use (a := .chosen _ src) choosing)
  | own _ _ state _ _ _ pid => exact kept pid (by rw [state])
  | expired _ runs =>
    exact stays rfl (by simp) (inv.in_use (a := .cpu _) (exec_running runs).1)
  | gives _ _ runs stopped _ _ pid fixed =>
    refine stays (fixed.pid.trans pid) (fixed.in_use ?_)
      (inv.in_use (a := .cpu _) (exec_running runs).1)
    rcases stopped with state | ⟨state, _⟩ | ⟨state, _⟩ <;> simp [state]

/-- Every step of the kernel keeps the invariant of process ids. -/
theorem Kernel.Inv.pidInv_step (inv : s.Inv) (pids : s.PidInv) (ran : s.step act = some s') :
    s'.PidInv := by
  have identity := inv.step_identity ran
  have next := (step_globals ran).1
  have pos : 0 < s.nextpid := by
    have bound := pids.bound s.initproc
    by_cases unused : (s.procs s.initproc).state = .unused
    · rw [pids.free _ unused] at bound
      exact bound
    · exact Int.lt_trans (pids.used _ unused) bound
  refine ⟨fun p inUse => ?_, fun p unused => ?_, fun p => ?_, fun p p' same notZero => ?_⟩
  · cases identity p with
    | kept pid use =>
      rw [pid]
      exact pids.used p fun unused => inUse (use.mpr unused)
    | taken _ _ _ pid =>
      rw [pid]
      exact pos
    | freed _ unused => exact absurd unused inUse
  · cases identity p with
    | kept pid use =>
      rw [pid]
      exact pids.free p (use.mp unused)
    | taken _ _ _ _ use => exact absurd unused use
    | freed pid => exact pid
  · cases identity p with
    | kept pid =>
      rw [pid]
      exact Int.lt_of_lt_of_le (pids.bound p) next
    | taken _ _ _ pid _ counted =>
      rw [pid, counted]
      exact Int.lt_succ _
    | freed pid =>
      rw [pid]
      exact Int.lt_of_lt_of_le pos next
  -- A pid that is new in this step is above all the others.
  have first := identity p
  have second := identity p'
  cases first with
  | kept pid =>
    cases second with
    | kept pid' => exact pids.unique p p' (by rw [← pid, ← pid', same]) (pid ▸ notZero)
    | taken _ _ _ pid' =>
      rw [pid, pid'] at same
      exact absurd same (Int.ne_of_lt (pids.bound p))
    | freed pid' => exact absurd (same.trans pid') notZero
  | taken _ runs searching pid =>
    cases second with
    | kept pid' =>
      rw [pid, pid'] at same
      exact absurd same.symm (Int.ne_of_lt (pids.bound p'))
    | taken _ executes' searching' =>
      cases runs.symm.trans executes'
      cases searching.symm.trans searching'
      rfl
    | freed pid' => exact absurd (same.trans pid') notZero
  | freed pid => exact absurd pid notZero

/-- `nextpid` stays an `int`. -/
theorem step_nextpid (few : s.nextpid ≤ Kernel.maxInt) (ran : s.step act = some s') :
    s'.nextpid ≤ Kernel.maxInt := by
  cases step_cases ran with
  | scheduler step => cases step <;> exact few
  | tick => exact few
  | wakes => exact few
  | @proc c _ t _ _ _ step =>
    have called : ∀ {s₁ : Kernel n} {x : Proc} {p : ProcId}, s₁.nextpid = s.nextpid →
        (s₁.sched c p t x).nextpid ≤ Kernel.maxInt := by
      intro s₁ x p next
      rwa [(sched_globals s₁ c p t x).2.2.1, next]
    cases step with
    | taken _ _ _ _ _ _ below => exact below
    | refused _ _ _ _ below => exact below
    | yields => exact called rfl
    | sleeps => exact called rfl
    | exits _ _ notInit =>
      rw [Kernel.exit, if_neg notInit]
      exact called rfl
    | _ => exact few

/-- Process ids are never shared: of the processes in use each has a positive pid of its own,
below the next one, which is an `int`. -/
theorem pids_unique
    (run : Run Kernel.step (fun s act => s.reenters act = false) (boot n) s) (p : ProcId)
    (inUse : (s.procs p).state ≠ .unused) :
    0 < (s.procs p).pid ∧ (s.procs p).pid < s.nextpid ∧ s.nextpid ≤ Kernel.maxInt ∧
      ∀ p', (s.procs p').pid = (s.procs p).pid → p' = p := by
  obtain ⟨_, pids, few⟩ : s.Inv ∧ s.PidInv ∧ s.nextpid ≤ Kernel.maxInt := by
    apply run.invariant ⟨boot_inv, boot_pidInv, by simp [boot, Kernel.maxInt]⟩
    rintro _ _ _ ⟨inv, pids, few⟩ leaves ran
    exact ⟨inv.step leaves ran, inv.pidInv_step pids ran, step_nextpid few ran⟩
  have pos := pids.used p inUse
  refine ⟨pos, pids.bound p, few, fun p' same => ?_⟩
  exact pids.unique p' p same (same ▸ Int.ne_of_gt pos)

/-- The first process has forked a child with pid 2. -/
theorem pids_unique_child : ∃ s : Kernel 1, (s.procs 1).pid = 2 ∧ s.nextpid = 3 ∧
    ∀ p', (s.procs p').pid = (s.procs 1).pid → p' = 1 := by
  obtain ⟨s, run, inUse, pid, next⟩ := exists_run_of_runChecked Kernel.step
    (fun s act => s.reenters act = false) (boot 1)
    (traps 0 ++ forkOne 0 none)
    (P := fun s => (s.procs 1).state ≠ .unused ∧ (s.procs 1).pid = 2 ∧ s.nextpid = 3)
    (by decide +kernel)
  exact ⟨s, pid, next, (pids_unique run 1 inUse).2.2.2⟩

end CustomXv6

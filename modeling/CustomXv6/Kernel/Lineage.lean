/-
Module: CustomXv6.Kernel.Lineage
Purpose: Free entries of the process table; fork(), exit() and wait() as steps of a family.
Trusted boundary: none
Main exports: freeSlots_clean, Kernel.family, processTree
-/
import CustomXv6.Kernel.Partition
import CustomXv6.Lib.Family

namespace CustomXv6

open Transition Kernel
open Function

variable {n : Nat} {s s' : Kernel n} {c : Fin n} {p i : ProcId} {t : Option ThreadId} {x y : Proc}
  {procs : ProcId → Proc} {act : Action n} {cont : Cont}

/-! ### Where a process can get to in its code -/

/-- The point of its code at which a step leaves process `p`. -/
inductive ContChange (s : Kernel n) (p : ProcId) : Action n → Cont → Prop where
  | same {act : Action n} : ContChange s p act (s.procs p).context
  /-- The entry has been taken by `allocproc`. -/
  | born {act : Action n} : ContChange s p act .forkret
  /-- A call has come to its end, or a trap has entered the kernel. -/
  | kernel {act : Action n} : ContChange s p act .kernel
  | moves {c : Fin n} {t : Option ThreadId} {act : ProcAction} {cont : Cont}
      (runs : s.executing c = some (p, t)) (move : ContMove s p act cont) :
      ContChange s p (.proc c act) cont
  | returns {c : Fin n} {t : Option ThreadId} (runs : s.executing c = some (p, t))
      (atReturn : (s.procs p).context = .returning) :
      ContChange s p (.proc c .usertrapret) .user
  | expires {c : Fin n} {t : Option ThreadId} (usage : CpuUsage)
      (runs : s.executing c = some (p, t)) (has : (s.procs p).usageTime = some usage)
      (late : usage.deadline ≤ s.ticks) : ContChange s p (.proc c .usertrap) .trapYield
  | threads {c : Fin n} {t : Option ThreadId} {act : ProcAction}
      (runs : s.executing c = some (p, t)) (call : act.threadCall) :
      ContChange s p (.proc c act) .threadYield
  | takes {c : Fin n} {t : Option ThreadId} (deadline : Option UInt32) (index : ProcId)
      (runs : s.executing c = some (p, t))
      (searching : (s.procs p).context = .allocproc deadline index) :
      ContChange s p (.proc c (.allocproc true)) (.forkParent deadline index)
  | adopts {c : Fin n} {t : Option ThreadId} (deadline : Option UInt32) (np : ProcId)
      (runs : s.executing c = some (p, t))
      (forking : (s.procs p).context = .forkParent deadline np) :
      ContChange s p (.proc c .forkParent) (.forkRunnable deadline np)
  | waits {c : Fin n} {t : Option ThreadId} {act : ProcAction}
      (runs : s.executing c = some (p, t)) (move : SleepMove s p act (.proc p) .waitLoop) :
      ContChange s p (.proc c act) .waitLoop

variable {effect : Effect n} {actor : ProcId}

namespace ContChange

theorem of_eq (same : cont = (s.procs p).context) : ContChange s p act cont := by
  rw [same]
  exact .same

/-- Of two entries updated one after the other, the second one moves. -/
theorem pair {act : ProcAction} {nextpid : Int}
    (other : y.context = (s.procs i).context ∨ y.context = .forkret)
    (moved : s.executing c = some (actor, t) → p = actor → ContChange s p (.proc c act) cont)
    (runs : s.executing c = some (actor, t)) :
    ContChange s p (.proc c act)
      ((({ s with nextpid := nextpid }.setProc i y).setCont actor cont).procs p).context := by
  rw [setCont_procs]
  split
  · rename_i same
    exact moved runs same
  rw [Kernel.setProc_procs, update_apply]
  split
  · rename_i same
    subst same
    rcases other with kept | fresh
    · exact .of_eq kept
    · rw [fresh]
      exact .born
  · exact .same

theorem sched (stopped : x.state ≠ .running) (moved : p = actor → ContChange s p act x.context) :
    ContChange s p act ((s.sched c actor t x).procs p).context := by
  rcases sched_entry s c actor t stopped p with kept | ⟨same, fixed⟩
  · rw [kept]
    exact .same
  · rw [fixed.context]
    exact moved same

theorem procStep {act : ProcAction} (runs : s.executing c = some (actor, t))
    (step : ProcStep s actor act effect) :
    ContChange s p (.proc c act) ((s.finish c actor t effect).procs p).context := by
  have alone : ∀ {x : Proc}, (p = actor → ContChange s p (.proc c act) x.context) →
      ContChange s p (.proc c act) ((s.setProc actor x).procs p).context := by
    intro x moved
    rw [Kernel.setProc_procs, update_apply]
    split
    · rename_i same
      exact moved same
    · exact .same
  cases step with
  | moves _ _ _ move =>
    exact alone fun same => .moves (same ▸ runs) (same ▸ move)
  | own x _ _ move =>
    refine alone fun same => ?_
    subst same
    cases move with
    | usertrap => exact .kernel
    | usertrapret _ atReturn => exact .returns runs atReturn
    | setkilled => exact .same
    | threadReturns _ _ _ kept => exact .of_eq kept.context
    | threadYields _ call => exact .threads runs call
  | expired usage _ has late =>
    refine alone fun same => ?_
    subst same
    exact .expires usage runs has late
  | taken deadline index _ searching =>
    refine pair (.inr rfl) (fun _ same => ?_) runs
    subst same
    exact .takes deadline index runs searching
  | refused => exact pair (.inl rfl) (fun _ _ => .kernel) runs
  | forkParent deadline np forking =>
    refine pair (.inl rfl) (fun _ same => ?_) runs
    subst same
    exact .adopts deadline np runs forking
  | forkRunnable _ _ _ _ readied =>
    exact pair (.inl readied.facts.2.1) (fun _ _ => .kernel) runs
  | reaps => exact pair (.inl rfl) (fun _ _ => .kernel) runs
  | kills => exact pair (.inl rfl) (fun _ _ => .kernel) runs
  | storesQuota => exact pair (.inl rfl) (fun _ _ => .kernel) runs
  | yields cont _ _ _ resumes =>
    refine sched (by simp) fun same => ?_
    subst same
    rcases resumes with kept | ⟨_, atKernel⟩
    · exact .of_eq kept
    change ContChange s p _ cont
    rw [atKernel]
    exact .kernel
  | sleeps _ _ _ _ _ _ move =>
    refine sched (by simp) fun same => ?_
    subst same
    cases move with
    | call => exact .same
    | wait copyout noZombie child alive waiting =>
      exact .waits runs (.wait copyout noZombie child alive waiting)
  | exits status _ notInit =>
    rcases exit_entry c t status notInit p with kept | ⟨rfl, fixed⟩
    · exact .of_eq (by rw [kept]; exact orphan_context _ _ _ _)
    · exact .of_eq (by rw [fixed.context]; exact orphan_context _ _ _ _)
  | panics => exact .same

end ContChange

/-- Every step leaves every process at one of the listed points of its code. -/
theorem step_context (ran : s.step act = some s')
    (p : ProcId) : ContChange s p act (s'.procs p).context := by
  cases step_cases ran with
  | scheduler step => exact .of_eq (schedStep_kept step p).context
  | tick => exact .of_eq rfl
  | wakes => exact .of_eq (wakeup_context _ _ _ _)
  | proc runs step => exact .procStep runs step

/-! ### Free entries -/

/-- What `freeproc` leaves of a process, as far as `allocproc` and the searches
of the table rely on it. -/
structure Proc.Clean (x : Proc) : Prop where
  pid : x.pid = 0
  killed : x.killed = false
  parent : x.parent = none
  currentThread : x.currentThread = none
  threads : ∀ t, (x.threads t).state = .free

theorem freeproc_clean (x : Proc) : (freeproc x).Clean := ⟨rfl, rfl, rfl, rfl, fun _ => rfl⟩

/-- The process on CPU `c` is about to store into entry `i`, which it takes for
the one with the pid it was asked to kill. -/
def Kernel.Hits (s : Kernel n) (i : ProcId) (act : Action n) : Prop :=
  ∃ c p t pid, act = .proc c .killStep ∧ s.executing c = some (p, t) ∧
    (s.procs p).context = .killLoop pid i ∧ (s.procs i).pid = pid

/-- The parts of an entry that `Proc.Clean` looks at. -/
structure Proc.SameSlot (x y : Proc) : Prop where
  state : y.state = x.state
  pid : y.pid = x.pid
  killed : y.killed = x.killed
  parent : y.parent = x.parent
  currentThread : y.currentThread = x.currentThread
  threads : y.threads = x.threads

theorem Proc.SameSlot.refl (x : Proc) : x.SameSlot x := ⟨rfl, rfl, rfl, rfl, rfl, rfl⟩

theorem Proc.SameSlot.clean (same : x.SameSlot y) (clean : x.Clean) : y.Clean :=
  ⟨same.pid.trans clean.pid, same.killed.trans clean.killed, same.parent.trans clean.parent,
    same.currentThread.trans clean.currentThread, fun t => by rw [same.threads]; exact clean.threads t⟩

/-- How an entry can come to be free: it was free, or `freeproc` or `kill` has stored into it. -/
inductive FreeAfter (s : Kernel n) (i : ProcId) (act : Action n) (y : Proc) : Prop where
  | kept (same : (s.procs i).SameSlot y)
  | freed (x : Proc) (freedEq : y = freeproc x)
  | killed (hit : s.Hits i act) (free : (s.procs i).state = .unused)

/-- Waking a process frees nothing. -/
theorem wakeup_free {self : Option ProcId} {chan : Option Chan}
    (free : (wakeup self chan procs i).state = .unused) : wakeup self chan procs i = procs i := by
  rcases wakeup_cases self chan procs i with same | ⟨_, woken⟩
  · exact same
  · rw [woken] at free
    cases free

theorem schedStep_free (step : SchedStep s c s')
    (free : (s'.procs i).state = .unused) : s'.procs i = s.procs i := by
  have updated : ∀ {p' : ProcId} {x : Proc}, x.state ≠ .unused →
      (update s.procs p' x i).state = .unused →
        update s.procs p' x i = s.procs i := by
    intro p' x inUse unused
    by_cases same : i = p'
    · subst same
      rw [update_self] at unused
      exact absurd unused inUse
    · rw [update_of_ne same]
  cases step with
  | moves => rfl
  | pushes => rfl
  | drops => exact updated (by simp) free
  | chooses => exact updated (by simp) free
  | unparks => rfl
  | enters _ _ _ _ _ _ same => exact updated (by simp [same.state]) free
  | rests => exact updated (by simp) free
  | faults => exact updated (by simp) free
  | stops => rfl

/-- `sched` frees nothing. -/
theorem sched_free (stopped : x.state ≠ .running) (inUse : x.state ≠ .unused)
    (free : ((s.sched c p t x).procs i).state = .unused) :
    (s.sched c p t x).procs i = s.procs i := by
  rcases sched_entry s c p t stopped i with kept | ⟨_, fixed⟩
  · exact kept
  · exact absurd free (fixed.in_use inUse)

theorem orphan_free {initproc : ProcId}
    (noParent : (procs i).state = .unused → (procs i).parent = none)
    (free : (orphan initproc p procs i).state = .unused) : orphan initproc p procs i = procs i := by
  rcases orphan_cases initproc p procs i with same | ⟨_, woken⟩
  · rw [same] at free ⊢
    rw [newParent, if_neg (by simp [noParent free])]
  · rw [woken] at free
    cases free

namespace Kernel.Inv

variable (inv : s.Inv) (orphans : ∀ i, (s.procs i).state = .unused → (s.procs i).parent = none)
include inv orphans

theorem procStep_free {act : ProcAction} (runs : s.executing c = some (p, t))
    (step : ProcStep s p act effect) (free : ((s.finish c p t effect).procs i).state = .unused) :
    FreeAfter s i (.proc c act) ((s.finish c p t effect).procs i) := by
  have running := (exec_running runs).1
  have inUse : (s.procs p).state ≠ .unused := inv.in_use (a := .cpu c) running
  have kept : ∀ {y : Proc}, y = s.procs i → FreeAfter s i (.proc c act) y := by
    rintro y rfl
    exact .kept (.refl _)
  have alone : ∀ {x : Proc}, x.state ≠ .unused → ((s.setProc p x).procs i).state = .unused →
      (s.setProc p x).procs i = s.procs i := by
    intro x used unused
    by_cases same : i = p
    · subst same
      rw [Kernel.setProc_procs, update_self] at unused
      exact absurd unused used
    · rw [Kernel.setProc_procs, update_of_ne same]
  -- Two entries change: that of the actor, which is in use, and entry `j`.
  have pair : ∀ {j : ProcId} {y : Proc} {cont : Cont} {nextpid : Int},
      (j = p → y.state ≠ .unused) →
      (j = i → y.state = .unused → FreeAfter s i (.proc c act) y) →
      ((({ s with nextpid := nextpid }.setProc j y).setCont p cont).procs i).state = .unused →
      FreeAfter s i (.proc c act)
        ((({ s with nextpid := nextpid }.setProc j y).setCont p cont).procs i) := by
    intro j y _ _ actor entry unused
    rw [setCont_procs] at unused ⊢
    split
    · rename_i same
      rw [if_pos same] at unused
      simp only [Kernel.setProc_procs, update_apply] at unused
      split at unused
      · rename_i isActor
        exact absurd unused (actor isActor.symm)
      · exact absurd unused inUse
    rename_i other
    rw [if_neg other, Kernel.setProc_procs, update_apply] at unused
    rw [Kernel.setProc_procs, update_apply]
    split
    · rename_i same
      rw [if_pos same] at unused
      exact entry same.symm unused
    · exact .kept (.refl _)
  cases step with
  | moves => exact kept (alone inUse free)
  | own _ change => exact kept (alone (by rw [change.state]; exact inUse) free)
  | expired => exact kept (alone (by simp) free)
  | taken =>
    exact pair (fun _ => by simp [newProc]) nofun free
  | refused _ _ _ unused =>
    refine pair (fun same => ?_) (fun _ _ => .freed _ rfl) free
    exact absurd (same ▸ unused) inUse
  | forkParent _ np forking =>
    have used := inv.forks.used p np (by rw [forking]; rfl)
    refine pair (fun _ => by simp [used]) (fun _ unused => ?_) free
    cases used.symm.trans unused
  | forkRunnable _ _ _ _ readied =>
    have runnable := readied.facts.1
    exact pair (fun _ => by simp [runnable]) (fun _ unused => by cases runnable.symm.trans unused)
      free
  | reaps _ found =>
    have zombie := (firstZombie_spec found).2
    refine pair (fun same => ?_) (fun _ _ => .freed _ rfl) free
    have notOff := inv.running_not_off running
    rw [← same, zombie] at notOff
    cases notOff
  | kills pid _ killing hit =>
    have state : ∀ {x : Proc}, (killProc x).state = .unused → x.state = .unused := by
      intro x unused
      simp only [killProc] at unused
      split at unused
      · cases unused
      · exact unused
    refine pair (fun same unused => inUse (same ▸ state unused)) (fun same unused => ?_) free
    subst same
    exact .killed ⟨c, p, t, pid, rfl, runs, killing, hit⟩ (state unused)
  | storesQuota =>
    refine pair (fun same => by rw [same]; exact inUse) (fun same _ => ?_) free
    subst same
    exact .kept ⟨rfl, rfl, rfl, rfl, rfl, rfl⟩
  | yields => exact kept (sched_free (by simp) (by simp) free)
  | sleeps => exact kept (sched_free (by simp) (by simp) free)
  | exits status _ notInit =>
    rcases exit_entry c t status notInit i with unchanged | ⟨_, fixed⟩
    · rw [unchanged] at free ⊢
      exact kept (orphan_free (orphans i) free)
    · exact absurd free (fixed.in_use (by simp))
  | panics => exact .kept (.refl _)

/-- Every step leaves a free entry as it was, has just freed it, or is a
`kill` that stores into it. -/
theorem step_free (ran : s.step act = some s')
    (free : (s'.procs i).state = .unused) : FreeAfter s i act (s'.procs i) := by
  have kept : ∀ {y : Proc}, y = s.procs i → FreeAfter s i act y := by
    rintro y rfl
    exact .kept (.refl _)
  cases step_cases ran with
  | scheduler step => exact kept (schedStep_free step free)
  | tick => exact kept rfl
  | wakes => exact kept (wakeup_free free)
  | proc runs step => exact inv.procStep_free orphans runs step free

end Kernel.Inv

/-! ### Processes that kill -/

/-- The step is a call of `kill(0)`. -/
def Action.killsZero : Action n → Bool
  | .proc _ (.kill pid) => pid = 0
  | _ => false

/-- No process searches the table for pid 0 in order to kill. -/
def Kernel.NoZeroKill (s : Kernel n) : Prop :=
  ∀ p pid i, (s.procs p).context = .killLoop pid i → pid ≠ 0

theorem noZeroKill_step (noZero : s.NoZeroKill)
    (allowed : act.killsZero = false) (ran : s.step act = some s') : s'.NoZeroKill := by
  intro p pid i killing
  have moved := step_context ran p
  rw [killing] at moved
  generalize contEq : Cont.killLoop pid i = cont at moved
  cases moved with
  | same => exact noZero p pid i contEq.symm
  | moves _ move =>
    cases move with
    | kill =>
      cases contEq
      simpa [Action.killsZero] using allowed
    | killNext _ index _ killing' =>
      cases contEq
      exact noZero p pid index killing'
    | _ => cases contEq
  | _ => cases contEq

/-- The invariant behind `freeSlots_clean`. -/
structure Kernel.SlotInv (s : Kernel n) : Prop where
  inv : s.Inv
  kills : s.NoZeroKill
  clean : ∀ i, (s.procs i).state = .unused → (s.procs i).Clean

theorem boot_slotInv : (boot n).SlotInv := by
  refine ⟨boot_inv, fun p pid i killing => ?_, fun i free => ?_⟩
  · simp only [boot] at killing
    split at killing <;> cases killing
  simp only [boot] at free ⊢
  split at free
  · cases free
  rename_i other
  rw [if_neg other]
  exact ⟨rfl, rfl, rfl, rfl, fun _ => rfl⟩

namespace Kernel.SlotInv

/-- `kill` finds no free entry. -/
theorem not_hits (inv : s.SlotInv) (act : Action n) (free : (s.procs i).state = .unused) :
    ¬ s.Hits i act := by
  rintro ⟨c, p, t, pid, _, _, killing, hit⟩
  exact inv.kills p pid i killing (hit.symm.trans (inv.clean i free).pid)

theorem step (inv : s.SlotInv) (leaves : s.reenters act = false)
    (allowed : act.killsZero = false) (ran : s.step act = some s') : s'.SlotInv := by
  refine ⟨inv.inv.step leaves ran, noZeroKill_step inv.kills allowed ran, fun i free => ?_⟩
  have orphans : ∀ i, (s.procs i).state = .unused → (s.procs i).parent = none :=
    fun i free => (inv.clean i free).parent
  cases inv.inv.step_free orphans ran free with
  | kept same => exact same.clean (inv.clean i (same.state.symm.trans free))
  | freed x freedEq =>
    rw [freedEq]
    exact freeproc_clean x
  | killed hit unused => exact absurd hit (inv.not_hits act unused)

/-- A step of `kill` leaves free entries alone. -/
theorem killStep_other (inv : s.SlotInv)
    (ran : s.step (.proc c .killStep) = some s') (free : (s.procs i).state = .unused) :
    s'.procs i = s.procs i := by
  obtain ⟨p, t, _, runs, acted, rfl⟩ := proc_step_cases ran
  have other : i ≠ p := by
    rintro rfl
    exact inv.inv.in_use (a := .cpu c) (exec_running runs).1 free
  cases procAction_cases acted with
  | moves => simp [Kernel.finish, Kernel.setCont, other]
  | own _ _ _ move =>
    cases move with
    | threadReturns _ call => cases call
    | threadYields _ call => cases call
  | kills pid index killing hit =>
    have missed : i ≠ index := by
      rintro rfl
      exact inv.not_hits _ free ⟨c, p, t, pid, rfl, runs, killing, hit⟩
    simp [Kernel.finish, Kernel.setCont, other, missed]
  | yields _ gives => cases gives
  | sleeps _ _ gives => cases gives
  | panics => rfl

/-- An entry that is taken into use is not marked as killed. -/
theorem taken_alive (inv : s.SlotInv) (ran : s.step act = some s')
    (free : (s.procs i).state = .unused) (inUse : (s'.procs i).state ≠ .unused) :
    (s'.procs i).killed = false := by
  have notHere : ∀ {a : Place n}, ¬ s.At i a := fun atA => inv.inv.in_use atA free
  have changed := inv.inv.step_change ran i
  generalize s'.procs i = y at changed inUse
  cases changed with
  | idles _ state => exact absurd (state.trans free) inUse
  | wakes _ sleeping => cases free.symm.trans sleeping
  | readies _ _ used => cases free.symm.trans used
  | taken => exact (inv.clean i free).killed
  | freed => exact absurd rfl inUse
  | stores _ _ _ _ _ _ state => exact absurd (state.trans free) inUse
  | drops _ popped => exact absurd popped (notHere (a := .heap))
  | chooses _ popped => exact absurd popped (notHere (a := .heap))
  | enters src _ choosing => exact absurd choosing (notHere (a := .chosen _ src))
  | rests src _ choosing => exact absurd choosing (notHere (a := .chosen _ src))
  | own _ _ state => exact absurd (state.trans free) inUse
  | expired _ runs => exact absurd (exec_running runs).1 (notHere (a := .cpu _))
  | gives _ _ runs => exact absurd (exec_running runs).1 (notHere (a := .cpu _))

end Kernel.SlotInv

/-- In every run that calls neither `kill(0)` nor re-enters a process, free
entries of the table are clean; `kill` therefore changes only processes in use,
and a new process is not killed from the start. -/
theorem freeSlots_clean (n : Nat) (s : Kernel n) (run : Run Kernel.step
      (fun s act => s.reenters act = false ∧ act.killsZero = false) (boot n) s) :
    (∀ i, (s.procs i).state = .unused → (s.procs i).Clean) ∧
      (∀ c s', s.step (.proc c .killStep) = some s' →
        ∀ i, (s.procs i).state = .unused → s'.procs i = s.procs i) ∧
      ∀ act s', s.step act = some s' → ∀ i, (s.procs i).state = .unused →
        (s'.procs i).state ≠ .unused → (s'.procs i).killed = false := by
  have inv : s.SlotInv := run.invariant boot_slotInv
    fun inv allowed ran => inv.step allowed.1 allowed.2 ran
  exact ⟨inv.clean, fun c s' ran i free => inv.killStep_other ran free,
    fun act s' ran i free inUse => inv.taken_alive ran free inUse⟩

/-- A child has exited and has been waited for, and its parent has called
`kill` with a pid that nobody has. -/
theorem freeSlots_clean_reaped :
    ∃ s : Kernel 2, Run Kernel.step
      (fun s act => s.reenters act = false ∧ act.killsZero = false) (boot 2) s ∧
        (s.nextpid = 3 ∧ (s.procs 1).state = .unused) ∧ (s.procs 1).Clean := by
  obtain ⟨s, run, freed⟩ := exists_run_of_runChecked Kernel.step
    (fun s act => s.reenters act = false ∧ act.killsZero = false) (boot 2)
    (childExits 7 ++ [.proc 0 (.wait true),
      .proc 0 (.kill 5), .proc 0 .killStep, .proc 0 .killStep])
    (P := fun s => s.nextpid = 3 ∧ (s.procs 1).state = .unused) (by decide +kernel)
  exact ⟨s, run, freed, (freeSlots_clean 2 s run).1 1 freed.2⟩

/-- `kill(0)` hits the first free entry, and the next `fork` takes it without clearing the
mark. -/
theorem killZero_marks_free_slot :
    (∃ s : Kernel 1, Run Kernel.step (fun _ act => act.threadCall = false) (boot 1) s ∧
      (s.procs 1).state = .unused ∧ (s.procs 1).killed = true) ∧
    ∃ s : Kernel 1, Run Kernel.step (fun _ act => act.threadCall = false) (boot 1) s ∧
      (s.procs 1).state = .runnable ∧ (s.procs 1).pid = 2 ∧ (s.procs 1).killed = true := by
  constructor
  · exact exists_run_of_runChecked _ _ _ (traps 0 ++
      [.proc 0 (.kill 0), .proc 0 .killStep, .proc 0 .killStep]) (by decide +kernel)
  · exact exists_run_of_runChecked _ _ _ (traps 0 ++
      [.proc 0 (.kill 0), .proc 0 .killStep, .proc 0 .killStep] ++ forkOne 0 none)
      (by decide +kernel)

variable {state : ProcState}

/-! ### The family of a process table -/

/-- Every state in which a process can be executed, or waits to be, is `live`. -/
def ProcState.stage : ProcState → Family.Stage
  | .unused => .free
  | .used => .fresh
  | .zombie => .zombie
  | _ => .live

/-- The child that a process in `fork` is making, and whether `np->parent` has
been stored. -/
def Cont.making : Cont → Option (ProcId × Bool)
  | .forkParent _ np => some (np, false)
  | .forkRunnable _ np => some (np, true)
  | _ => none

def Proc.waits (i : ProcId) (x : Proc) : Bool := x.state = .sleeping ∧ x.chan = some (.proc i)

/-- What the process table says about parents and children. -/
def Kernel.family (s : Kernel n) : Family ProcId where
  stage i := (s.procs i).state.stage
  pid i := (s.procs i).pid
  parent i := (s.procs i).parent
  forking i := (s.procs i).context.making
  waits i := (s.procs i).waits i
  nextpid := s.nextpid

variable {nextpid : Int} {ticks : UInt32} {usage : CpuUsage}

theorem Cont.making_of_plain (plain : cont.plain) : cont.making = none := by
  cases cont with
  | forkParent => cases plain
  | forkRunnable => cases plain
  | _ => rfl

theorem ProcState.stage_of_not_off (notOff : state.off = false) : state.stage = .live := by
  cases state with
  | unused => cases notOff
  | used => cases notOff
  | zombie => cases notOff
  | _ => rfl

theorem ProcState.stage_free : state.stage = .free ↔ state = .unused := by
  cases state <;> simp [stage]

theorem ProcState.stage_zombie : state.stage = .zombie ↔ state = .zombie := by
  cases state <;> simp [stage]

/-- A step changes nothing of a process that its family sees, except perhaps
whether it waits. -/
structure Proc.SameKin (x y : Proc) : Prop where
  stage : y.state.stage = x.state.stage
  pid : y.pid = x.pid
  parent : y.parent = x.parent
  making : y.context.making = x.context.making

/-- A step changes nothing of a process that its family sees, except that it
may wake it. -/
structure Proc.SameMember (i : ProcId) (x y : Proc) : Prop extends x.SameKin y where
  waits : y.waits i = true → x.waits i = true

theorem Proc.SameMember.refl (i : ProcId) (x : Proc) : x.SameMember i x :=
  ⟨⟨rfl, rfl, rfl, rfl⟩, id⟩

theorem Proc.asleep_of_waits (waits : x.waits i = true) :
    x.state = .sleeping ∧ x.chan = some (.proc i) := of_decide_eq_true waits

theorem Proc.waits_of_ne (awake : x.state ≠ .sleeping) : x.waits i = false := by
  simp [Proc.waits, awake]

/-- A process that does not sleep is the same member if its family sees the
same of it. -/
theorem Proc.SameKin.member (kin : x.SameKin y) (i : ProcId) (awake : y.state ≠ .sleeping) :
    x.SameMember i y :=
  ⟨kin, fun waits => absurd (Proc.asleep_of_waits waits).1 awake⟩

theorem quiet_family (next : s.nextpid ≤ s'.nextpid)
    (same : ∀ i, (s.procs i).SameMember i (s'.procs i)) :
    Family.Step s.initproc s.family s'.family :=
  .quiet next (funext fun i => (same i).stage) (funext fun i => (same i).pid)
    (funext fun i => (same i).parent) (funext fun i => (same i).making) fun i => (same i).waits

/-! ### Steps of the scheduler and of interrupts -/

theorem wakeup_member (self : Option ProcId) (chan : Option Chan) (procs : ProcId → Proc)
    (i : ProcId) : (procs i).SameMember i (wakeup self chan procs i) := by
  rcases wakeup_cases self chan procs i with same | ⟨sleeping, woken⟩
  · rw [same]
    exact .refl _ _
  rw [woken]
  have kin : (procs i).SameKin { procs i with state := .runnable } :=
    ⟨by rw [sleeping]; rfl, rfl, rfl, rfl⟩
  exact kin.member i (by simp)

theorem Kernel.Inv.stage_live (inv : s.Inv) {a : Place n} (atA : s.At p a) :
    (s.procs p).state.stage = .live :=
  ProcState.stage_of_not_off (inv.fits p a atA).not_off

theorem Kernel.Inv.schedStep_member (inv : s.Inv) (step : SchedStep s c s')
    (i : ProcId) : (s.procs i).SameMember i (s'.procs i) := by
  have kept := schedStep_kept step i
  -- The process that a step of the scheduler changes is live before and after.
  have updated : ∀ {p : ProcId} {x : Proc} {a : Place n}, s.At p a → x.state.stage = .live →
      x.state ≠ .sleeping →
      (update s.procs p x i).state.stage = (s.procs i).state.stage ∧
        ((update s.procs p x i).waits i = true → (s.procs i).waits i = true) := by
    intro p x a atA live awake
    by_cases same : i = p
    · subst same
      rw [update_self, live, inv.stage_live atA, Proc.waits_of_ne awake]
      exact ⟨rfl, nofun⟩
    · rw [update_of_ne same]
      exact ⟨rfl, id⟩
  have changed : (s'.procs i).state.stage = (s.procs i).state.stage ∧
      ((s'.procs i).waits i = true → (s.procs i).waits i = true) := by
    cases step with
    | moves => exact ⟨rfl, id⟩
    | pushes => exact ⟨rfl, id⟩
    | drops _ _ _ _ contents =>
      exact updated (a := .heap) (by simp [At, contents]) rfl (by simp)
    | chooses _ _ _ _ contents =>
      exact updated (a := .heap) (by simp [At, contents]) rfl (by simp)
    | unparks => exact ⟨rfl, id⟩
    | enters _ src _ x _ choosing same =>
      have running : x.state = .running := same.state
      exact updated (a := .chosen c src) choosing (by simp [running, ProcState.stage])
        (by simp [running])
    | rests _ src _ choosing =>
      exact updated (a := .chosen c src) choosing rfl (by simp)
    | faults _ src choosing =>
      exact updated (a := .chosen c src) choosing rfl (by simp)
    | stops => exact ⟨rfl, id⟩
  exact ⟨⟨changed.1, kept.pid, kept.parent, by rw [kept.context]⟩, changed.2⟩

/-! ### Steps of a process -/

theorem Proc.Readied.same {deadline : Option UInt32} (readied : x.Readied deadline y) :
    y.pid = x.pid ∧ y.parent = x.parent ∧ y.killed = x.killed ∧ y.trapframe = x.trapframe := by
  cases deadline with
  | none =>
    rw [show y = _ from readied]
    exact ⟨rfl, rfl, rfl, rfl⟩
  | some =>
    obtain ⟨_, _, rfl⟩ := readied
    exact ⟨rfl, rfl, rfl, rfl⟩

theorem pair_procs (ne : i ≠ p) (j : ProcId) :
    (({ s with nextpid := nextpid }.setProc i y).setCont p cont).procs j =
      if j = p then { s.procs p with context := cont } else if j = i then y else s.procs j := by
  rw [setCont_procs]
  simp only [setProc_procs, update_apply, if_neg ne.symm]

/-- `exit` always leaves the CPU: no limit test and no thread loop applies to a
zombie. -/
theorem sched_zombie (usage : CpuUsage) (zombie : x.state = .zombie)
    (has : x.usageTime = some usage) :
    s.sched c p t x = s.leave c p { x with usageTime := some (usage.settled s.ticksAt) } := by
  cases t <;> simp [sched, has, limits, zombie, afterSwtch, CpuUsage.settled]

/-- The sleep channel of a process that has called `sched`. -/
theorem sched_chan :
    (s.sched c p t x).procs p = s.procs p ∨ ((s.sched c p t x).procs p).chan = x.chan ∨
      ((s.sched c p t x).procs p).chan = none := by
  have returned := sched_cases s c p t x
  generalize s.sched c p t x = s' at returned ⊢
  cases returned with
  | panics => exact .inl rfl
  | leaves _ _ _ _ _ same =>
    refine .inr (.inl ?_)
    simp only [leave, setCpu_procs, setProc_procs, update_self]
    split <;> exact same.chan
  | reenters =>
    rw [enter]
    split
    · exact .inl rfl
    · exact .inr (.inr (by simp))

theorem Limited.stage {pre after : ProcState} (lim : Limited ticks usage pre after) :
    after.stage = pre.stage := by
  cases lim <;> rfl

theorem Limited.sleeping {pre after : ProcState} (lim : Limited ticks usage pre after) :
    after = .sleeping → pre = .sleeping := by
  cases lim with
  | untested => exact id
  | _ => exact nofun

namespace Kernel.Inv

/-- What the family sees of the processes after one of them has given up the
CPU. -/
theorem sched_kin (inv : s.Inv) (running : (s.cpus c).proc = some p)
    (stopped : x.state = .runnable ∨ x.state = .sleeping) (pid : x.pid = (s.procs p).pid)
    (parent : x.parent = (s.procs p).parent)
    (making : x.context.making = (s.procs p).context.making) (i : ProcId) :
    (s.procs i).SameKin ((s.sched c p t x).procs i) := by
  have notRunning : x.state ≠ .running := by
    rcases stopped with state | state <;> simp [state]
  have stage : x.state.stage = .live := by
    rcases stopped with state | state <;> simp [state, ProcState.stage]
  rcases sched_entry s c p t notRunning i with kept | ⟨rfl, fixed⟩
  · rw [kept]
    exact ⟨rfl, rfl, rfl, rfl⟩
  obtain ⟨usage, has, lim, _⟩ := fixed.usage
  refine ⟨?_, fixed.pid.trans pid, fixed.parent.trans parent, by rw [fixed.context, making]⟩
  rw [lim.stage, stage, inv.stage_live (a := .cpu c) running]

/-- Whoever waits after a process has given up the CPU waited before, or is that process. -/
theorem sched_waits (stopped : x.state ≠ .running)
    (waits : ((s.sched c p t x).procs i).waits i = true) :
    (s.procs i).waits i = true ∨ (i = p ∧ x.state = .sleeping ∧ x.chan = some (.proc p)) := by
  rcases sched_entry s c p t stopped i with kept | ⟨rfl, fixed⟩
  · rw [kept] at waits
    exact .inl waits
  obtain ⟨_, _, lim, _⟩ := fixed.usage
  obtain ⟨asleep, chanEq⟩ := Proc.asleep_of_waits waits
  rcases sched_chan (s := s) (c := c) (p := i) (t := t) (x := x) with kept | chan | chan
  · rw [kept] at waits
    exact .inl waits
  · exact .inr ⟨rfl, lim.sleeping asleep, chan.symm.trans chanEq⟩
  · cases chan.symm.trans chanEq

end Kernel.Inv

theorem hasChild_iff : hasChild procs p = true ↔ ∃ i, (procs i).parent = some p := by
  simp [hasChild]

theorem firstZombie_none (none : firstZombie procs p = none) (i : ProcId)
    (child : (procs i).parent = some p) : (procs i).state ≠ .zombie := by
  intro zombie
  have missed := List.find?_eq_none.mp none i (List.mem_finRange i)
  simp [child, zombie] at missed

/-- Whoever sleeps in `wait` after a `wakeup` did so before, on another
channel. -/
theorem wakeup_waits {self : ProcId} {chan : Option Chan} (other : i ≠ self)
    (waits : (wakeup (some self) chan procs i).waits i = true) :
    (procs i).waits i = true ∧ chan ≠ some (.proc i) := by
  rw [wakeup] at waits
  split_ifs at waits with notWoken
  · rw [Proc.waits_of_ne (by simp)] at waits
    cases waits
  refine ⟨waits, fun same => notWoken ⟨by simp [other], ?_⟩⟩
  rw [Proc.waits, decide_eq_true_eq] at waits
  exact ⟨waits.1, waits.2.trans same.symm⟩

/-- `exit` wakes the parent of the process and, if it hands over children, the
first process. -/
theorem orphan_waits {initproc : ProcId} (other : i ≠ p) (notOwn : (procs p).parent ≠ some p)
    (waits : (orphan initproc p procs i).waits i = true) :
    (procs i).waits i = true ∧ (procs p).parent ≠ some i ∧
      (i = initproc → ∀ r, (procs r).parent ≠ some p) := by
  obtain ⟨pre, notParent⟩ := wakeup_waits other waits
  have parent : (reparent initproc p procs p).parent = (procs p).parent := by
    rw [reparent]
    split
    · rw [wakeup_parent, if_neg notOwn]
    · rfl
  rw [parent] at notParent
  have isParent : (procs p).parent ≠ some i := by
    intro same
    rw [same] at notParent
    exact notParent rfl
  rw [reparent] at pre
  split_ifs at pre with childless
  · obtain ⟨pre, notInit⟩ := wakeup_waits other pre
    refine ⟨?_, isParent, fun same => absurd (by rw [same]) notInit⟩
    split at pre <;> exact pre
  · refine ⟨pre, isParent, fun _ r child => childless ?_⟩
    exact hasChild_iff.mpr ⟨r, child⟩

namespace Kernel.Inv

/-- `exit` is a step of the family. -/
theorem exit_family (inv : s.Inv) (running : (s.cpus c).proc = some p) (status : Int)
    (atKernel : (s.procs p).context = .kernel) (notInit : p ≠ s.initproc)
    (notOwn : (s.procs p).parent ≠ some p) :
    Family.Step s.initproc s.family (s.finish c p t (s.exit p status)).family := by
  obtain ⟨usage, has⟩ := Option.ne_none_iff_exists'.mp
    (inv.usage p (inv.in_use (a := .cpu c) running))
  have usageEq : (orphan s.initproc p s.procs p).usageTime = some usage := by
    rw [orphan_usageTime, has]
  rw [Kernel.exit, if_neg notInit, Kernel.finish,
    sched_zombie usage rfl (by simpa using usageEq)]
  -- The record of every process after the step.
  have procs : ∀ charged j, ((({ s with procs := orphan s.initproc p s.procs } : Kernel n).leave c p
      { orphan s.initproc p s.procs p with
        xstate := status
        state := .zombie
        usageTime := some charged }).procs j) =
      if j = p then { orphan s.initproc p s.procs p with
        xstate := status
        state := .zombie
        usageTime := some charged } else orphan s.initproc p s.procs j := by
    simp [Kernel.leave, update_apply]
  have stage : ∀ j, (orphan s.initproc p s.procs j).state.stage = (s.procs j).state.stage := by
    intro j
    rcases orphan_cases s.initproc p s.procs j with same | ⟨sleeping, woken⟩
    · rw [same]
    · rw [woken, sleeping]
      rfl
  refine .exits p notInit (inv.stage_live (a := .cpu c) running)
    (by simp [Kernel.family, atKernel, Cont.making]) rfl (funext fun j => ?_) (funext fun j => ?_)
    (funext fun j => ?_) (funext fun j => ?_) fun j waits => ?_
  · simp only [Kernel.family, procs, update_apply]
    split
    · rfl
    · exact stage j
  · simp only [Kernel.family, procs]
    split
    · rename_i same
      rw [same]
      exact orphan_pid _ _ _ _
    · exact orphan_pid _ _ _ _
  · simp only [Kernel.family, procs]
    split
    · rename_i same
      rw [same]
      exact orphan_parent _ _ _ _
    · exact orphan_parent _ _ _ _
  · simp only [Kernel.family, procs]
    split
    · rename_i same
      rw [same]
      simp
    · simp
  simp only [Kernel.family, procs] at waits
  split at waits
  · rw [Proc.waits_of_ne (by simp)] at waits
    cases waits
  rename_i other
  obtain ⟨pre, notParent, notInit⟩ := orphan_waits other notOwn waits
  exact ⟨pre, other, notParent, notInit⟩

/-- An action that changes only the record of the executing process, and
nothing its family sees. -/
theorem own_family (kin : (s.procs p).SameKin x) (awake : x.state ≠ .sleeping) :
    Family.Step s.initproc s.family (s.setProc p x).family := by
  refine quiet_family (Int.le_refl _) fun i => ?_
  rw [setProc_procs, update_apply]
  split_ifs with same
  · subst same
    exact kin.member i awake
  · exact .refl _ _

/-- An action that changes the records of two processes and nothing their family sees. -/
theorem pair_family (next : s.nextpid ≤ nextpid) (same : (s.procs i).SameMember i y)
    (making : cont.making = (s.procs p).context.making) :
    Family.Step s.initproc s.family
      (({ s with nextpid := nextpid }.setProc i y).setCont p cont).family := by
  have others : ∀ j, (s.procs j).SameMember j
      (({ s with nextpid := nextpid }.setProc i y).procs j) := by
    intro j
    rw [setProc_procs, update_apply]
    split_ifs with isOther
    · subst isOther
      exact same
    · exact .refl _ _
  refine quiet_family next fun j => ?_
  rw [setCont_procs]
  split_ifs with isActor
  · subst isActor
    have kin := others j
    exact ⟨⟨kin.stage, kin.pid, kin.parent, making⟩, kin.waits⟩
  · exact others j

theorem killProc_member (x : Proc) (i : ProcId) : x.SameMember i (killProc x) := by
  have kin : x.SameKin (killProc x) := by
    refine ⟨?_, rfl, rfl, rfl⟩
    simp only [killProc]
    split_ifs with sleeping
    · rw [sleeping]
      rfl
    · rfl
  refine kin.member i ?_
  simp only [killProc]
  split_ifs with awake
  · simp
  · exact awake

/-- A process that goes to sleep in `wait` is a step of the family. -/
theorem wait_family (inv : s.Inv) (running : (s.cpus c).proc = some p)
    (making : cont.making = (s.procs p).context.making) (noZombie : firstZombie s.procs p = none)
    (child : hasChild s.procs p = true) :
    Family.Step s.initproc s.family
      (s.sched c p t
        { s.procs p with chan := some (.proc p), state := .sleeping, context := cont }).family := by
  obtain ⟨r, isChild⟩ := hasChild_iff.mp child
  have kin := inv.sched_kin (t := t) running
    (x := { s.procs p with chan := some (.proc p), state := .sleeping, context := cont })
    (.inr rfl) rfl rfl making
  refine .waits p r (inv.stage_live (a := .cpu c) running) isChild (fun j isChild zombie => ?_)
    (sched_globals s c p t _).2.2.1 (funext fun j => (kin j).stage) (funext fun j => (kin j).pid)
    (funext fun j => (kin j).parent) (funext fun j => (kin j).making) fun j other waits => ?_
  · exact firstZombie_none noZombie j isChild (ProcState.stage_zombie.mp zombie)
  rcases sched_waits (by simp) waits with pre | ⟨same, _⟩
  · exact pre
  · exact absurd same other

/-- Every action of a process is a step of the family. -/
theorem procStep_family (inv : s.Inv)
    (clean : ∀ i, (s.procs i).state = .unused → (s.procs i).pid = 0 ∧ (s.procs i).parent = none)
    (notOwn : (s.procs p).parent ≠ some p) {act : ProcAction}
    (runs : s.executing c = some (p, t)) (step : ProcStep s p act effect) :
    Family.Step s.initproc s.family (s.finish c p t effect).family := by
  have running := (exec_running runs).1
  have live : (s.procs p).state.stage = .live := inv.stage_live (a := .cpu c) running
  have notOff := inv.running_not_off running
  have awake : (s.procs p).state ≠ .sleeping := by
    intro sleeping
    rw [sleeping] at notOff
    cases notOff
  have distinct : ∀ {i : ProcId}, (s.procs i).state.off → i ≠ p := by
    rintro i off rfl
    rw [notOff] at off
    cases off
  have idle : ∀ (cont : Cont), (s.procs p).context.plain → cont.plain →
      cont.making = (s.procs p).context.making := fun cont pre after => by
    rw [Cont.making_of_plain pre, Cont.making_of_plain after]
  cases step with
  | moves cont pre after => exact own_family ⟨rfl, rfl, rfl, idle cont pre after⟩ awake
  | own _ change =>
    exact own_family ⟨by rw [change.state], change.pid, change.parent,
      idle _ change.pre change.after⟩ (by rw [change.state]; exact awake)
  | expired _ atUser =>
    exact own_family ⟨live.symm, rfl, rfl, by rw [atUser]; rfl⟩ (by simp)
  | taken deadline index frame searching free =>
    have ne : index ≠ p := distinct (by rw [free]; rfl)
    refine .takes p index (by simp [family, free, ProcState.stage]) live
      (by simp [family, searching, Cont.making]) rfl (funext fun j => ?_)
      (funext fun j => ?_) (funext fun j => ?_) (funext fun j => ?_) fun j => ?_
    all_goals
      simp only [family, finish, pair_procs ne, update_apply]
      by_cases isActor : j = p
      · subst isActor
        simp [ne.symm, Cont.making, Proc.waits, awake]
      by_cases isNew : j = index
      · subst isNew
        simp [isActor, newProc, ProcState.stage, Cont.making, Proc.waits]
      · simp [isActor, isNew]
  | refused _ index searching free =>
    refine pair_family (by omega) ?_ (by rw [searching]; rfl)
    have kin : (s.procs index).SameKin (freeproc (s.procs index)) :=
      ⟨by rw [free]; rfl, (clean index free).1.symm, (clean index free).2.symm, rfl⟩
    exact kin.member index (by simp [freeproc])
  | forkParent deadline np forking =>
    have used : (s.procs np).state = .used := inv.forks.used p np (by rw [forking]; rfl)
    have ne : np ≠ p := distinct (by rw [used]; rfl)
    refine .adopts p np (by simp [family, forking, Cont.making]) rfl (funext fun j => ?_)
      (funext fun j => ?_) (funext fun j => ?_) (funext fun j => ?_) fun j => ?_
    all_goals
      simp only [family, finish, pair_procs ne, update_apply]
      by_cases isActor : j = p
      · subst isActor
        simp [ne.symm, Cont.making, Proc.waits]
      by_cases isNew : j = np
      · subst isNew
        simp [isActor, Proc.waits]
      · simp [isActor, isNew]
  | forkRunnable deadline np y forking readied =>
    have used : (s.procs np).state = .used := inv.forks.used p np (by rw [forking]; rfl)
    have ne : np ≠ p := distinct (by rw [used]; rfl)
    have facts := readied.facts
    have same := readied.same
    refine .readies p np (by simp [family, forking, Cont.making]) rfl (funext fun j => ?_)
      (funext fun j => ?_) (funext fun j => ?_) (funext fun j => ?_) fun j => ?_
    all_goals
      simp only [family, finish, pair_procs ne, update_apply]
      by_cases isActor : j = p
      · subst isActor
        simp [ne.symm, Cont.making, Proc.waits]
      by_cases isNew : j = np
      · subst isNew
        simp [isActor, facts.1, facts.2.1, same, ProcState.stage, Proc.waits]
      · simp [isActor, isNew]
  | reaps pp found waiting =>
    have zombie := (firstZombie_spec found).2
    have ne : pp ≠ p := distinct (by rw [zombie]; rfl)
    have plain : (s.procs p).context.plain := by
      rcases waiting with context | context <;> rw [context] <;> rfl
    refine .reaps p pp (firstZombie_spec found).1 (by simp [family, zombie, ProcState.stage])
      rfl (funext fun j => ?_) (funext fun j => ?_) (funext fun j => ?_) (funext fun j => ?_)
      fun j => ?_
    all_goals
      simp only [family, finish, pair_procs ne, update_apply]
      by_cases isActor : j = p
      · subst isActor
        simp [ne.symm, Proc.waits, awake, idle .kernel plain rfl]
      by_cases isChild : j = pp
      · subst isChild
        simp [isActor, freeproc, ProcState.stage, Proc.waits]
      · simp [isActor, isChild]
  | kills _ _ killing =>
    exact pair_family (Int.le_refl _) (killProc_member _ _) (by rw [killing]; rfl)
  | storesQuota _ _ _ storing =>
    refine pair_family (Int.le_refl _) ⟨⟨rfl, rfl, rfl, rfl⟩, fun waits => ?_⟩
      (by rw [storing]; rfl)
    exact decide_eq_true (Proc.asleep_of_waits waits)
  | yields cont _ _ _ resumes =>
    have making : cont.making = (s.procs p).context.making := by
      rcases resumes with kept | ⟨pre, atKernel⟩
      · rw [kept]
      · rw [atKernel]
        rcases pre with context | context <;> rw [context] <;> rfl
    refine quiet_family (Int.le_of_eq (sched_globals s c p t _).2.2.1.symm) fun i => ?_
    refine ⟨inv.sched_kin running (x := { s.procs p with state := .runnable, context := cont })
      (.inl rfl) rfl rfl making i, fun waits => ?_⟩
    rcases sched_waits (by simp) waits with pre | ⟨_, asleep, _⟩
    · exact pre
    · cases asleep
  | sleeps chan cont _ _ pre after move =>
    have making := idle cont pre after
    cases move with
    | call chan noProc =>
      refine quiet_family (Int.le_of_eq (sched_globals s c p t _).2.2.1.symm) fun i => ?_
      refine ⟨inv.sched_kin running
        (x := { s.procs p with chan := some chan, state := .sleeping }) (.inr rfl) rfl rfl
        rfl i, fun waits => ?_⟩
      rcases sched_waits (by simp) waits with pre | ⟨_, _, onProc⟩
      · exact pre
      · exact absurd (Option.some.inj onProc) (noProc p)
    | wait _ noZombie child => exact inv.wait_family running making noZombie child
  | exits status atKernel notInit => exact inv.exit_family running status atKernel notInit notOwn
  | panics => exact quiet_family (Int.le_refl _) fun i => .refl _ _

end Kernel.Inv

/-! ### The invariant -/

structure Kernel.Lineage (s : Kernel n) : Prop where
  inv : s.Inv
  pids : s.PidInv
  family : Family.Inv s.initproc s.family
  initPid : (s.procs s.initproc).pid = 1

theorem boot_family : Family.Inv (boot n).initproc (boot n).family := by
  have stage : ∀ i, (boot n).family.stage i = if i = 0 then .live else .free := by
    intro i
    simp only [family, boot]
    split <;> rfl
  have pid : ∀ i, (boot n).family.pid i = if i = 0 then 1 else 0 := by
    intro i
    simp only [family, boot]
    split <;> rfl
  have parent : ∀ i, (boot n).family.parent i = none := by
    intro i
    simp only [family, boot]
    split <;> rfl
  have forking : ∀ i, (boot n).family.forking i = none := by
    intro i
    simp only [family, boot]
    split <;> rfl
  have waits : ∀ i, (boot n).family.waits i = false := by
    intro i
    simp only [family, boot]
    split <;> rfl
  have root : (boot n).initproc = 0 := rfl
  have next : (boot n).family.nextpid = 2 := rfl
  refine ⟨⟨?_, ?_, ?_, ?_⟩, ⟨?_, ?_, ?_, ?_, ?_, ?_, ?_, ?_, ?_, ?_, ?_, ?_⟩, ⟨?_, ?_, ?_⟩⟩
  all_goals simp only [stage, pid, parent, forking, waits, root, next]
  all_goals grind

namespace Kernel.Lineage

theorem step (lineage : s.Lineage) (leaves : s.reenters act = false)
    (ran : s.step act = some s') :
    s'.Lineage ∧ Family.Step s.initproc s.family s'.family := by
  have inv := lineage.inv
  have tree := lineage.family.tree
  have clean : ∀ i, (s.procs i).state = .unused →
      (s.procs i).pid = 0 ∧ (s.procs i).parent = none := fun i free =>
    ⟨lineage.pids.free i free, tree.free i (ProcState.stage_free.mpr free)⟩
  have family : Family.Step s.initproc s.family s'.family := by
    cases step_cases ran with
    | scheduler step => exact quiet_family (step_globals ran).1 (inv.schedStep_member step)
    | tick => exact quiet_family (Int.le_refl _) fun _ => .refl _ _
    | wakes => exact quiet_family (Int.le_refl _) (wakeup_member _ _ _)
    | @proc _ p _ _ _ runs step =>
      refine inv.procStep_family clean (fun own => ?_) runs step
      exact Int.lt_irrefl _ (tree.order p p own)
  refine ⟨⟨inv.step leaves ran, inv.pidInv_step lineage.pids ran, ?_, ?_⟩, family⟩
  · rw [(step_globals ran).2]
    exact lineage.family.step family
  · rw [(step_globals ran).2]
    refine (family.pid_kept (i := s.initproc) ?_ ?_).trans lineage.initPid
    · simp [tree.rootLive]
    · simp [(lineage.family.step family).tree.rootLive]

end Kernel.Lineage

theorem boot_lineage : (boot n).Lineage := ⟨boot_inv, boot_pidInv, boot_family, rfl⟩

/-- The invariant holds in every run that does not re-enter a process. -/
theorem reached_lineage
    (run : Run step (fun s act => s.reenters act = false) (boot n) s) : s.Lineage :=
  run.invariant boot_lineage fun lineage leaves ran => (lineage.step leaves ran).1

/-! ### The process tree -/

def Kernel.ParentOf (s : Kernel n) (p q : ProcId) : Prop := (s.procs p).parent = some q

/-- The parents of the processes in use form a tree.  Pids are handed out in the model until
`nextpid` is the largest `int`. -/
structure Kernel.ProcessTree (s : Kernel n) : Prop where
  distinct : ∀ p p', (s.procs p).state ≠ .unused → (s.procs p').state ≠ .unused →
    (s.procs p).pid = (s.procs p').pid → p = p'
  bound : ∀ p, (s.procs p).state ≠ .unused → (s.procs p).pid < s.nextpid
  /-- Only a process that is still being set up has no parent yet. -/
  stored : ∀ p, (s.procs p).state ≠ .unused → (s.procs p).state ≠ .used → p ≠ s.initproc →
    (s.procs p).parent ≠ none
  parent : ∀ p q, (s.procs p).state ≠ .unused → p ≠ s.initproc → s.ParentOf p q →
    (s.procs q).state ≠ .unused ∧ (s.procs q).state ≠ .zombie ∧ (s.procs q).pid < (s.procs p).pid
  acyclic : ∀ p, ¬ Relation.TransGen s.ParentOf p p
  /-- The chain of parents leads to the first process. -/
  rooted : ∀ p q, (s.procs p).state ≠ .unused → s.ParentOf p q →
    Relation.ReflTransGen s.ParentOf p s.initproc
  init : (s.procs s.initproc).state ≠ .unused ∧ (s.procs s.initproc).pid = 1 ∧
    (s.procs s.initproc).parent = none

theorem Kernel.Lineage.tree (lineage : s.Lineage) : s.ProcessTree := by
  have tree := lineage.family.tree
  have liveOf : ∀ {p}, s.family.stage p = .live →
      (s.procs p).state ≠ .unused ∧ (s.procs p).state ≠ .zombie := by
    intro p live
    constructor <;> intro state <;> simp [Kernel.family, state, ProcState.stage] at live
  refine
    { distinct := fun p p' inUse _ same => lineage.pids.unique p p' same ?_
      bound := fun p _ => lineage.pids.bound p
      stored := fun p inUse notUsed notInit => tree.hasParent p ?_ notInit
      parent := fun p q _ _ isParent =>
        ⟨(liveOf (tree.parentLive p q isParent)).1, (liveOf (tree.parentLive p q isParent)).2,
          tree.order p q isParent⟩
      acyclic := tree.acyclic
      rooted := fun p q _ isParent => .head isParent (tree.reaches_root (tree.parentLive p q isParent))
      init := ⟨(liveOf tree.rootLive).1, lineage.initPid, tree.rootParent⟩ }
  · exact Int.ne_of_gt (lineage.pids.used p inUse)
  simp only [Kernel.family]
  generalize (s.procs p).state = state at inUse notUsed
  cases state with
  | unused => exact absurd rfl inUse
  | used => exact absurd rfl notUsed
  | zombie => exact .inr rfl
  | _ => exact .inl rfl

/-- In every run without thread calls the processes in use have distinct pids and form a tree
whose root is the first process. -/
theorem processTree (n : Nat) (s : Kernel n)
    (run : Run Kernel.step (fun _ act => act.threadCall = false) (boot n) s) :
    s.ProcessTree :=
  (reached_lineage (unthreaded_run run).2).tree

/-- The first process has forked a child and the child a grandchild; the child has exited. -/
theorem processTree_reparented :
    ∃ s : Kernel 2, Run Kernel.step (fun _ act => act.threadCall = false) (boot 2) s ∧
      ((s.procs 1).state = .zombie ∧ (s.procs 2).parent = some 0 ∧ (s.procs 2).pid = 3) ∧
        s.ProcessTree := by
  obtain ⟨s, run, orphaned⟩ := exists_run_of_runChecked Kernel.step
    (fun _ act => act.threadCall = false) (boot 2)
    (traps 0 ++ forkOne 0 none ++ traps 1 ++ [.proc 1 (.fork none), .proc 1 (.allocproc true),
        .proc 1 (.allocproc true), .proc 1 (.allocproc true), .proc 1 .forkParent,
        .proc 1 .forkRunnable, .proc 1 (.exit 0)])
    (P := fun s => (s.procs 1).state = .zombie ∧ (s.procs 2).parent = some 0 ∧ (s.procs 2).pid = 3)
    (by decide +kernel)
  exact ⟨s, run, orphaned, processTree 2 s run⟩

end CustomXv6

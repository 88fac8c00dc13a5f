/-
Module: CustomXv6.Kernel.Reaping
Purpose: What wait() returns over whole runs.
Trusted boundary: human-reviewed spec
Main exports: Reaping.step, reaped_once
-/
import CustomXv6.Kernel.Lineage

namespace CustomXv6

open Transition
open Function

variable {n : Nat}

/-! ### Histories -/

/-- A `wait` that returns a child: the pid of the caller, that of the process
`pp->parent` points to at that moment, the pid returned and the status copied
out. -/
structure Reap where
  caller : Int
  parent : Option Int
  child : Int
  status : Int
deriving DecidableEq, Repr

namespace Kernel

/-- `fork` stores `np->parent`: the pids of the child and of the caller. -/
def forkEvent (s : Kernel n) : Action n → Option (Int × Int)
  | .proc c .forkParent =>
    match s.executing c with
    | none => none
    | some (p, _) =>
      match (s.procs p).context with
      | .forkParent _ np => some ((s.procs np).pid, (s.procs p).pid)
      | _ => none
  | _ => none

/-- `exit` is called by a process other than the first: its pid and the
status. -/
def exitEvent (s : Kernel n) : Action n → Option (Int × Int)
  | .proc c (.exit status) =>
    match s.executing c with
    | none => none
    | some (p, _) => if p = s.initproc then none else some ((s.procs p).pid, status)
  | _ => none

/-- What a `wait` of process `p` returns when it finds the zombie `pp`:
`pid = pp->pid`, and the `copyout` of `pp->xstate`. -/
def reapOf (s : Kernel n) (p pp : ProcId) : Reap :=
  { caller := (s.procs p).pid
    parent := (s.procs pp).parent.map fun q => (s.procs q).pid
    child := (s.procs pp).pid
    status := (s.procs pp).xstate }

/-- One search of `wait` that returns a child. -/
def waitEvent (s : Kernel n) : Action n → Option Reap
  | .proc c (.wait true) =>
    match s.executing c with
    | none => none
    | some (p, _) => (firstZombie s.procs p).map (s.reapOf p)
  | _ => none

end Kernel

/-- The kernel with the history of its run, latest event first: which process
forked which, who has exited with which status, and what `wait` has returned. -/
structure Reaping (n : Nat) where
  kernel : Kernel n
  forks : List (Int × Int)
  exits : List (Int × Int)
  reaps : List Reap

namespace Reaping

def step (s : Reaping n) (act : Action n) : Option (Reaping n) :=
  (s.kernel.step act).map fun kernel =>
    { kernel := kernel
      forks := (s.kernel.forkEvent act).toList ++ s.forks
      exits := (s.kernel.exitEvent act).toList ++ s.exits
      reaps := (s.kernel.waitEvent act).toList ++ s.reaps }

def boot (n : Nat) : Reaping n :=
  { kernel := CustomXv6.boot n, forks := [], exits := [], reaps := [] }

end Reaping

/-! ### What the events say about a step -/

variable {c : Fin n} {t : Option ThreadId}

namespace Kernel.Inv

variable {s s' : Kernel n} {act : Action n} {i : ProcId}

/-- A zombie stays as it is until a `wait` returns it. -/
theorem zombie_step (inv : s.Inv) (ran : s.step act = some s')
    (zombie : (s.procs i).state = .zombie) :
    ((s'.procs i).state = .zombie ∧ (s'.procs i).pid = (s.procs i).pid ∧
      (s'.procs i).xstate = (s.procs i).xstate) ∨
    ((s'.procs i).state = .unused ∧ ∃ reap, s.waitEvent act = some reap ∧
      reap.child = (s.procs i).pid ∧ reap.status = (s.procs i).xstate) := by
  have kept : ∀ {y : Proc}, y = s.procs i → y.state = .zombie ∧ y.pid = (s.procs i).pid ∧
      y.xstate = (s.procs i).xstate := by
    rintro y rfl
    exact ⟨zombie, rfl, rfl⟩
  have notHere : ∀ {a : Place n}, ¬ s.At i a := by
    intro a atA
    have notOff := (inv.fits i a atA).not_off
    rw [zombie] at notOff
    cases notOff
  have woken : ∀ {self : Option ProcId} {chan : Option Chan},
      CustomXv6.wakeup self chan s.procs i = s.procs i := by
    intro self _
    rw [CustomXv6.wakeup, if_neg]
    rintro ⟨_, sleeping, _⟩
    cases zombie.symm.trans sleeping
  cases step_cases ran with
  | @scheduler c _ step =>
    refine .inl (kept ?_)
    have other : ∀ {p : ProcId} {x : Proc} {a : Place n}, s.At p a →
        update s.procs p x i = s.procs i := by
      intro p x a atA
      refine update_of_ne ?_ _ _
      rintro rfl
      exact notHere atA
    cases step with
    | drops _ _ _ _ contents => exact other (a := .heap) (by simp [Kernel.At, contents])
    | chooses _ _ _ _ contents =>
      exact other (a := .heap) (by simp [Kernel.At, contents])
    | enters _ src _ _ _ choosing => exact other (a := .chosen c src) choosing
    | rests _ src _ choosing => exact other (a := .chosen c src) choosing
    | faults _ src choosing => exact other (a := .chosen c src) choosing
    | _ => rfl
  | tick => exact .inl (kept rfl)
  | wakes => exact .inl (kept woken)
  | @proc c p t _ _ runs step =>
    have notActor : i ≠ p := by
      rintro rfl
      exact notHere (a := .cpu c) (exec_running runs).1
    -- Of two entries that an action changes, `i` can only be the other one.
    have pair : ∀ {j : ProcId} {y : Proc} {cont : Cont} {nextpid : Int}, i ≠ j →
        (({ s with nextpid := nextpid }.setProc j y).setCont p cont).procs i = s.procs i := by
      intro j y cont nextpid other
      rw [setCont_procs, if_neg notActor, Kernel.setProc_procs, update_of_ne other]
    have self : ∀ {y : Proc} {cont : Cont} {nextpid : Int},
        (({ s with nextpid := nextpid }.setProc i y).setCont p cont).procs i = y := by
      intro y _ _
      rw [setCont_procs, if_neg notActor, Kernel.setProc_procs, update_self]
    cases step with
    | moves => exact .inl (kept (update_of_ne notActor _ _))
    | own => exact .inl (kept (update_of_ne notActor _ _))
    | expired => exact .inl (kept (update_of_ne notActor _ _))
    | taken _ _ _ _ free =>
      refine .inl (kept (pair ?_))
      rintro rfl
      cases zombie.symm.trans free
    | refused _ _ _ free =>
      refine .inl (kept (pair ?_))
      rintro rfl
      cases zombie.symm.trans free
    | forkParent _ _ forking =>
      refine .inl (kept (pair ?_))
      rintro rfl
      cases zombie.symm.trans (inv.forks.used p i (by rw [forking]; rfl))
    | forkRunnable _ _ _ forking =>
      refine .inl (kept (pair ?_))
      rintro rfl
      cases zombie.symm.trans (inv.forks.used p i (by rw [forking]; rfl))
    | reaps pp found =>
      by_cases same : i = pp
      · subst same
        refine .inr ⟨by rw [Kernel.finish, self]; rfl, s.reapOf p i, ?_, rfl, rfl⟩
        simp [Kernel.waitEvent, runs, found]
      · exact .inl (kept (pair same))
    | kills _ index =>
      by_cases same : i = index
      · subst same
        refine .inl ?_
        rw [Kernel.finish, self]
        exact ⟨by simp [killProc, zombie], rfl, rfl⟩
      · exact .inl (kept (pair same))
    | storesQuota _ target =>
      by_cases same : i = target
      · subst same
        refine .inl ?_
        rw [Kernel.finish, self]
        exact ⟨zombie, rfl, rfl⟩
      · exact .inl (kept (pair same))
    | yields => exact .inl (kept (sched_other notActor))
    | sleeps => exact .inl (kept (sched_other notActor))
    | exits status _ notInit =>
      refine .inl ?_
      rcases exit_entry c t status notInit i with after | ⟨isActor, _⟩
      · rw [after]
        rcases orphan_cases s.initproc p s.procs i with same | ⟨sleeping, _⟩
        · rw [same]
          exact ⟨zombie, rfl, rfl⟩
        · cases zombie.symm.trans sleeping
      · exact absurd isActor notActor
    | panics => exact .inl (kept rfl)

/-- What `exit` makes of the process that calls it. -/
theorem exit_step (inv : s.Inv) {p : ProcId} {status : Int}
    (runs : s.executing c = some (p, t)) (ran : s.step (.proc c (.exit status)) = some s') :
    (p = s.initproc ∧ s'.procs = s.procs) ∨
      (p ≠ s.initproc ∧ (s'.procs p).state = .zombie ∧ (s'.procs p).pid = (s.procs p).pid ∧
        (s'.procs p).xstate = status) := by
  obtain ⟨_, _, effect, executes', acted, rfl⟩ := proc_step_cases ran
  cases runs.symm.trans executes'
  have called : effect = s.exit p status := by
    simp only [Kernel.procAction] at acted
    split at acted <;> simp_all
  rw [called, Kernel.exit]
  split
  · rename_i isInit
    exact .inl ⟨isInit, rfl⟩
  rename_i notInit
  obtain ⟨usage, has⟩ := Option.ne_none_iff_exists'.mp
    (inv.usage p (inv.in_use (a := .cpu c) (exec_running runs).1))
  rw [Kernel.finish, sched_zombie usage rfl (by simpa using has)]
  exact .inr ⟨notInit, by simp [Kernel.leave]⟩

section

variable (inv : s.Inv) (ran : s.step act = some s')
include inv ran

/-- Only `exit` makes a zombie. -/
theorem new_zombie (zombie : (s'.procs i).state = .zombie) (pre : (s.procs i).state ≠ .zombie) :
    s.exitEvent act = some ((s.procs i).pid, (s'.procs i).xstate) ∧
      (s'.procs i).pid = (s.procs i).pid := by
  have changed := inv.step_change ran i
  generalize afterEq : s'.procs i = y at changed zombie
  cases changed with
  | idles _ state => exact absurd (state.symm.trans zombie) pre
  | wakes _ _ state => cases state.symm.trans zombie
  | readies _ _ _ readied => cases readied.facts.1.symm.trans zombie
  | taken => cases zombie
  | freed => cases zombie
  | stores _ _ _ _ _ _ state => exact absurd (state.symm.trans zombie) pre
  | drops => cases zombie
  | chooses => cases zombie
  | enters _ _ _ state => cases state.symm.trans zombie
  | rests _ _ _ state => cases state.symm.trans zombie
  | own _ _ state => exact absurd (state.symm.trans zombie) pre
  | expired => cases zombie
  | @gives _ call _ _ _ runs stopped _ _ _ fixed =>
    obtain ⟨_, _, lim, _⟩ := fixed.usage
    have exited : ∃ status, call = .exit status := by
      rw [zombie] at lim
      rcases stopped with runnable | ⟨sleeping, _⟩ | ⟨_, exited⟩
      · rw [runnable] at lim
        cases lim
      · rw [sleeping] at lim
        cases lim
      · exact exited
    obtain ⟨_, rfl⟩ := exited
    rcases inv.exit_step runs ran with ⟨_, kept⟩ | ⟨notInit, _, samePid, xstate⟩
    · rw [← afterEq, kept] at zombie
      exact absurd zombie pre
    · rw [afterEq] at samePid xstate
      exact ⟨by simp [Kernel.exitEvent, runs, notInit, xstate], samePid⟩

/-- An `exit` that is recorded makes the process a zombie. -/
theorem exit_event {pid status : Int} (event : s.exitEvent act = some (pid, status)) :
    ∃ p, (s.procs p).state ≠ .unused ∧ (s.procs p).state ≠ .zombie ∧ (s.procs p).pid = pid ∧
      (s'.procs p).state = .zombie ∧ (s'.procs p).pid = pid ∧ (s'.procs p).xstate = status := by
  unfold Kernel.exitEvent at event
  split at event
  · rename_i c code
    split at event
    · cases event
    rename_i p t runs
    split at event
    · cases event
    rename_i notInit
    cases event
    have running := (exec_running runs).1
    have notZombie : (s.procs p).state ≠ .zombie := by
      intro zombie
      have notOff := inv.running_not_off running
      rw [zombie] at notOff
      cases notOff
    rcases inv.exit_step runs ran with ⟨isInit, _⟩ | ⟨_, zombie, pid, xstate⟩
    · exact absurd isInit notInit
    · exact ⟨p, inv.in_use (a := .cpu c) running, notZombie, rfl, zombie, pid, xstate⟩
  · cases event

/-- A `wait` that is recorded frees a zombie child of the caller. -/
theorem wait_event {reap : Reap} (event : s.waitEvent act = some reap) :
    ∃ p pp, (s.procs pp).state = .zombie ∧ (s.procs pp).parent = some p ∧ reap = s.reapOf p pp ∧
      (s'.procs pp).state = .unused := by
  unfold Kernel.waitEvent at event
  split at event
  · rename_i c
    split at event
    · cases event
    rename_i p t runs
    obtain ⟨pp, found, rfl⟩ := Option.map_eq_some_iff.mp event
    obtain ⟨isChild, zombie⟩ := firstZombie_spec found
    refine ⟨p, pp, zombie, isChild, rfl, ?_⟩
    obtain ⟨_, _, effect, executes', acted, rfl⟩ := proc_step_cases ran
    cases runs.symm.trans executes'
    have notActor : pp ≠ p := by
      rintro rfl
      have notOff := inv.running_not_off (exec_running runs).1
      rw [zombie] at notOff
      cases notOff
    have reaped : effect =
        .continues ((s.setProc pp (freeproc (s.procs pp))).setCont p .kernel) := by
      simp only [Kernel.procAction, Kernel.wait, found] at acted
      split at acted <;> simp_all
    rw [reaped, Kernel.finish, setCont_procs, if_neg notActor]
    simp [freeproc]
  · cases event

end

/-- A parent pointer is stored by `fork`, or by the `exit` of the old
parent. -/
theorem parent_after (ran : s.step act = some s') {q : ProcId}
    (parent : (s'.procs i).parent = some q) :
    (s.procs i).parent = some q ∨
      (s.forkEvent act = some ((s.procs i).pid, (s.procs q).pid) ∧ ∃ c, (s.cpus c).proc = some q) ∨
      (q = s.initproc ∧ ∃ p status, (s.procs i).parent = some p ∧
        s.exitEvent act = some ((s.procs p).pid, status)) := by
  cases step_cases ran with
  | scheduler step =>
    rw [(schedStep_kept step i).parent] at parent
    exact .inl parent
  | tick => exact .inl parent
  | wakes => exact .inl ((wakeup_parent _ _ _ _).symm.trans parent)
  | @proc c p t _ _ runs step =>
    have alone : ∀ {x : Proc}, ((s.setProc p x).procs i).parent = some q →
        x.parent = (s.procs p).parent → (s.procs i).parent = some q := by
      intro x after same
      rw [Kernel.setProc_procs, update_apply] at after
      split at after
      · rename_i isActor
        rw [isActor, ← same, after]
      · exact after
    have pair : ∀ {j : ProcId} {y : Proc} {cont : Cont} {nextpid : Int},
        ((({ s with nextpid := nextpid }.setProc j y).setCont p cont).procs i).parent = some q →
        (y.parent = (s.procs j).parent ∨ y.parent = none) → (s.procs i).parent = some q := by
      intro j y _ nextpid after other
      have updated : ∀ k, (({ s with nextpid := nextpid }.setProc j y).procs k).parent = some q →
          (s.procs k).parent = some q := by
        intro k stored
        rw [Kernel.setProc_procs, update_apply] at stored
        split at stored
        · rename_i isOther
          rcases other with same | none
          · rw [isOther, ← same, stored]
          · cases none.symm.trans stored
        · exact stored
      rw [setCont_procs] at after
      split at after
      · rename_i isActor
        rw [isActor]
        exact updated p after
      · exact updated i after
    have sched : ∀ {x : Proc}, ((s.sched c p t x).procs i).parent = some q →
        x.state ≠ .running → x.parent = (s.procs p).parent → (s.procs i).parent = some q := by
      intro x after stopped same
      rcases sched_entry s c p t stopped i with kept | ⟨rfl, fixed⟩
      · rwa [kept] at after
      · rw [← same, ← fixed.parent, after]
    cases step with
    | moves => exact .inl (alone parent rfl)
    | own _ change => exact .inl (alone parent change.parent)
    | expired => exact .inl (alone parent rfl)
    | taken => exact .inl (pair parent (.inl rfl))
    | refused => exact .inl (pair parent (.inr rfl))
    | forkParent _ np forking =>
      rw [Kernel.finish, setCont_procs] at parent
      by_cases isNew : i = np
      · subst isNew
        have stored : q = p := by
          split at parent
          · rename_i same
            subst same
            simpa [eq_comm] using parent
          · simpa [eq_comm] using parent
        rw [stored]
        exact .inr (.inl ⟨by simp [Kernel.forkEvent, runs, forking], c, (exec_running runs).1⟩)
      refine .inl ?_
      split at parent
      · rename_i same
        subst same
        simpa [isNew] using parent
      · simpa [isNew] using parent
    | forkRunnable _ _ _ _ readied =>
      exact .inl (pair parent (.inl readied.same.2.1))
    | reaps => exact .inl (pair parent (.inr rfl))
    | kills => exact .inl (pair parent (.inl rfl))
    | storesQuota => exact .inl (pair parent (.inl rfl))
    | yields => exact .inl (sched parent (by simp) rfl)
    | sleeps => exact .inl (sched parent (by simp) rfl)
    | exits status _ notInit =>
      have moved : (orphan s.initproc p s.procs i).parent = some q := by
        rcases exit_entry c t status notInit i with kept | ⟨rfl, fixed⟩
        · rwa [kept] at parent
        · exact fixed.parent.symm.trans parent
      rw [orphan_parent, newParent] at moved
      split at moved
      · rename_i child
        refine .inr (.inr ⟨(Option.some.inj moved).symm, p, status, child, ?_⟩)
        simp [Kernel.exitEvent, runs, notInit]
      · exact .inl moved
    | panics => exact .inl parent

end Kernel.Inv

/-- A `fork` that is recorded stores the parent of a process that has none
yet. -/
theorem Kernel.Lineage.fork_event {s s' : Kernel n} {act : Action n} (lineage : s.Lineage)
    (ran : s.step act = some s') {child forker : Int}
    (event : s.forkEvent act = some (child, forker)) :
    ∃ np, (s.procs np).state = .used ∧ (s.procs np).pid = child ∧ (s.procs np).parent = none ∧
      (s'.procs np).parent ≠ none := by
  unfold Kernel.forkEvent at event
  split at event
  · rename_i c
    split at event
    · cases event
    rename_i p t runs
    split at event
    · rename_i deadline np forking
      cases event
      have used := lineage.inv.forks.used p np (by rw [forking]; rfl)
      refine ⟨np, used, rfl, ?_, ?_⟩
      · exact lineage.family.tree.orphan p np (by simp [Kernel.family, forking, Cont.making])
      obtain ⟨_, _, effect, executes', acted, rfl⟩ := proc_step_cases ran
      cases runs.symm.trans executes'
      have stored : effect = .continues ((s.setProc np
          { s.procs np with parent := some p }).setCont p (.forkRunnable deadline np)) := by
        simpa [Kernel.procAction, forking, eq_comm] using acted
      rw [stored, Kernel.finish, setCont_procs]
      split
      · rename_i same
        simp [same]
      · simp
    · cases event
  · cases event

/-! ### The invariant of a history -/

namespace Reaping

/-- What a recorded `wait` has to satisfy: the child has exited with the status
that was copied out, and the caller is its parent at that moment: the process
that forked it, or the first process if that one has exited. -/
structure Right (s : Reaping n) (reap : Reap) : Prop where
  exited : (reap.child, reap.status) ∈ s.exits
  parent : reap.parent = some reap.caller
  forker : ∃ forker, (reap.child, forker) ∈ s.forks ∧
    (reap.caller = forker ∨ (reap.caller = 1 ∧ forker ∈ s.exits.map Prod.fst))

/-- The invariant that relates the history to the process table. -/
structure Inv (s : Reaping n) : Prop where
  lineage : s.kernel.Lineage
  single : s.kernel.Unthreaded
  zombies : ∀ i, (s.kernel.procs i).state = .zombie →
    ((s.kernel.procs i).pid, (s.kernel.procs i).xstate) ∈ s.exits
  exitsBound : ∀ exit ∈ s.exits, exit.1 < s.kernel.nextpid
  exited : ∀ exit ∈ s.exits, ∀ i, (s.kernel.procs i).state ≠ .unused →
    (s.kernel.procs i).pid = exit.1 →
      (s.kernel.procs i).state = .zombie ∧ (s.kernel.procs i).xstate = exit.2
  exitsNodup : (s.exits.map Prod.fst).Nodup
  forksBound : ∀ fork ∈ s.forks, fork.1 < s.kernel.nextpid
  forked : ∀ fork ∈ s.forks, ∀ i, (s.kernel.procs i).state ≠ .unused →
    (s.kernel.procs i).pid = fork.1 → (s.kernel.procs i).parent ≠ none
  forksNodup : (s.forks.map Prod.fst).Nodup
  parents : ∀ i q, (s.kernel.procs i).parent = some q →
    ∃ forker, ((s.kernel.procs i).pid, forker) ∈ s.forks ∧
      ((s.kernel.procs q).pid = forker ∨ (q = s.kernel.initproc ∧ forker ∈ s.exits.map Prod.fst))
  right : ∀ reap ∈ s.reaps, s.Right reap
  gone : ∀ reap ∈ s.reaps, ∀ i, (s.kernel.procs i).state ≠ .unused →
    (s.kernel.procs i).pid ≠ reap.child
  reapsNodup : (s.reaps.map Reap.child).Nodup

theorem boot_inv : (boot n).Inv := by
  have noParent : ∀ i, ((CustomXv6.boot n).procs i).parent = none := by
    intro i
    simp only [CustomXv6.boot]
    split <;> rfl
  refine
    { lineage := boot_lineage
      single := boot_unthreaded
      zombies := fun i zombie => ?_
      exitsBound := fun exit mem => absurd mem (List.not_mem_nil)
      exited := fun exit mem => absurd mem (List.not_mem_nil)
      exitsNodup := List.nodup_nil
      forksBound := fun fork mem => absurd mem (List.not_mem_nil)
      forked := fun fork mem => absurd mem (List.not_mem_nil)
      forksNodup := List.nodup_nil
      parents := fun i q parent => ?_
      right := fun reap mem => absurd mem (List.not_mem_nil)
      gone := fun reap mem => absurd mem (List.not_mem_nil)
      reapsNodup := List.nodup_nil }
  · simp only [boot, CustomXv6.boot] at zombie
    split at zombie <;> cases zombie
  · cases (noParent i).symm.trans parent

namespace Inv

variable {s s' : Reaping n} {act : Action n}

/-- Which pids are in use after a step: those of before, and new ones. -/
theorem pid_after (inv : s.Inv) {kernel : Kernel n} (ran : s.kernel.step act = some kernel)
    {i : ProcId} (inUse : (kernel.procs i).state ≠ .unused) :
    ((s.kernel.procs i).state ≠ .unused ∧ (kernel.procs i).pid = (s.kernel.procs i).pid) ∨
      (kernel.procs i).pid = s.kernel.nextpid := by
  have family := (inv.lineage.step (inv.single.leavesCpu act) ran).2
  have after : kernel.family.stage i ≠ .free := fun free => inUse (ProcState.stage_free.mp free)
  by_cases pre : (s.kernel.procs i).state = .unused
  · exact .inr (family.pid_new inv.lineage.family.forks (ProcState.stage_free.mpr pre) after)
  · exact .inl ⟨pre, family.pid_kept (fun free => pre (ProcState.stage_free.mp free)) after⟩

variable {α : Type*} {event : Option α} {hist : List α}

/-- The events of a step are added in front of the history. -/
theorem mem_record {x : α} (mem : x ∈ event.toList ++ hist) : event = some x ∨ x ∈ hist := by
  simpa using mem

theorem nodup_record {β : Type*} (key : α → β) (nodup : (hist.map key).Nodup)
    (fresh : ∀ x, event = some x → ∀ y ∈ hist, key x ≠ key y) :
    ((event.toList ++ hist).map key).Nodup := by
  cases event with
  | none => exact nodup
  | some x =>
    refine List.nodup_cons.mpr ⟨fun mem => ?_, nodup⟩
    obtain ⟨y, old, same⟩ := List.mem_map.mp mem
    exact fresh x rfl y old same.symm

section Step

variable {kernel : Kernel n} (inv : s.Inv) (ran : s.kernel.step act = some kernel)

include inv ran

/-- A history of events, each about one process that is in use.  `Q` says what
holds of the process with the pid of an event; it does not hold yet when the
event is recorded. -/
theorem history_step (key : α → Int) {Q R : α → ProcId → Prop}
    (bound : ∀ x ∈ hist, key x < s.kernel.nextpid)
    (holds : ∀ x ∈ hist, ∀ i, (s.kernel.procs i).state ≠ .unused →
      (s.kernel.procs i).pid = key x → Q x i) (nodup : (hist.map key).Nodup)
    (new : ∀ x, event = some x → ∃ p, (s.kernel.procs p).state ≠ .unused ∧
      (s.kernel.procs p).pid = key x ∧ (∀ y, ¬ Q y p) ∧ ((kernel.procs p).state ≠ .unused → R x p))
    (kept : ∀ x i, (kernel.procs i).state ≠ .unused → Q x i → R x i) :
    (∀ x ∈ event.toList ++ hist, key x < kernel.nextpid) ∧
    (∀ x ∈ event.toList ++ hist, ∀ i, (kernel.procs i).state ≠ .unused →
      (kernel.procs i).pid = key x → R x i) ∧
    ((event.toList ++ hist).map key).Nodup := by
  have pids := inv.lineage.pids
  have below : ∀ x ∈ event.toList ++ hist, key x < s.kernel.nextpid := by
    intro x mem
    rcases mem_record mem with now | old
    · obtain ⟨p, _, pid, _⟩ := new x now
      rw [← pid]
      exact pids.bound p
    · exact bound x old
  refine ⟨fun x mem => ?_, fun x mem i inUse same => ?_, ?_⟩
  · exact Int.lt_of_lt_of_le (below x mem) (step_globals ran).1
  · rcases inv.pid_after ran inUse with ⟨pre, pid⟩ | pid
    · rcases mem_record mem with now | old
      · obtain ⟨p, _, pidOf, _, after⟩ := new x now
        obtain rfl := pids.unique i p (pid.symm.trans (same.trans pidOf.symm))
          (Int.ne_of_gt (pids.used i pre))
        exact after inUse
      · exact kept x i inUse (holds x old i pre (pid.symm.trans same))
    · -- The pid of a new process is not in the history.
      have less := below x mem
      rw [← same, pid] at less
      exact absurd less (Int.lt_irrefl _)
  · refine nodup_record key nodup fun x now old mem same => ?_
    obtain ⟨p, inUse, pid, fresh, _⟩ := new x now
    exact fresh old (holds old mem p inUse (pid.trans same))

theorem zombies_step (i : ProcId) (zombie : (kernel.procs i).state = .zombie) :
    ((kernel.procs i).pid, (kernel.procs i).xstate) ∈
      (s.kernel.exitEvent act).toList ++ s.exits := by
  have kinv := inv.lineage.inv
  by_cases pre : (s.kernel.procs i).state = .zombie
  · rcases kinv.zombie_step ran pre with ⟨_, pid, xstate⟩ | ⟨free, _⟩
    · rw [pid, xstate]
      exact List.mem_append_right _ (inv.zombies i pre)
    · cases zombie.symm.trans free
  · obtain ⟨event, pid⟩ := kinv.new_zombie ran zombie pre
    rw [event, pid]
    exact List.mem_append_left _ (by simp)

theorem exits_step :
    (∀ exit ∈ (s.kernel.exitEvent act).toList ++ s.exits, exit.1 < kernel.nextpid) ∧
    (∀ exit ∈ (s.kernel.exitEvent act).toList ++ s.exits, ∀ i,
      (kernel.procs i).state ≠ .unused → (kernel.procs i).pid = exit.1 →
        (kernel.procs i).state = .zombie ∧ (kernel.procs i).xstate = exit.2) ∧
    (((s.kernel.exitEvent act).toList ++ s.exits).map Prod.fst).Nodup := by
  have kinv := inv.lineage.inv
  refine inv.history_step ran Prod.fst inv.exitsBound inv.exited inv.exitsNodup
    (fun exit event => ?_) fun exit i inUse zombie => ?_
  · obtain ⟨p, inUse, notZombie, pid, zombie, _, xstate⟩ := kinv.exit_event ran event
    exact ⟨p, inUse, pid, fun _ exited => notZombie exited.1, fun _ => ⟨zombie, xstate⟩⟩
  rcases kinv.zombie_step ran zombie.1 with ⟨still, _, kept⟩ | ⟨free, _⟩
  · exact ⟨still, kept.trans zombie.2⟩
  · exact absurd free inUse

theorem forks_step :
    (∀ fork ∈ (s.kernel.forkEvent act).toList ++ s.forks, fork.1 < kernel.nextpid) ∧
    (∀ fork ∈ (s.kernel.forkEvent act).toList ++ s.forks, ∀ i,
      (kernel.procs i).state ≠ .unused → (kernel.procs i).pid = fork.1 →
        (kernel.procs i).parent ≠ none) ∧
    (((s.kernel.forkEvent act).toList ++ s.forks).map Prod.fst).Nodup := by
  have family := (inv.lineage.step (inv.single.leavesCpu act) ran).2
  refine inv.history_step ran Prod.fst inv.forksBound inv.forked inv.forksNodup
    (fun fork event => ?_) fun fork i inUse hasParent => ?_
  · obtain ⟨np, used, pid, noParent, stored⟩ := inv.lineage.fork_event ran event
    exact ⟨np, by simp [used], pid, fun _ hasParent => hasParent noParent, fun _ => stored⟩
  · exact family.parent_kept hasParent fun free => inUse (ProcState.stage_free.mp free)

theorem parents_step (i q : ProcId) (parent : (kernel.procs i).parent = some q) :
    ∃ forker, ((kernel.procs i).pid, forker) ∈ (s.kernel.forkEvent act).toList ++ s.forks ∧
      ((kernel.procs q).pid = forker ∨ (q = kernel.initproc ∧
        forker ∈ ((s.kernel.exitEvent act).toList ++ s.exits).map Prod.fst)) := by
  obtain ⟨lineage, family⟩ := inv.lineage.step (inv.single.leavesCpu act) ran
  -- Child and parent are in use after the step, so they keep their pids.
  have childAfter : kernel.family.stage i ≠ .free := by
    intro free
    cases (lineage.family.tree.free i free).symm.trans parent
  have parentAfter : kernel.family.stage q ≠ .free := by
    simp [lineage.family.tree.parentLive i q parent]
  have inUse : ∀ {p : ProcId}, (s.kernel.procs p).parent ≠ none →
      s.kernel.family.stage p ≠ .free := by
    intro p hasParent free
    exact hasParent (inv.lineage.family.tree.free p free)
  rcases Kernel.Inv.parent_after ran parent with pre | ⟨event, c, running⟩ |
    ⟨isInit, p, status, pre, event⟩
  · have parentBefore : s.kernel.family.stage q ≠ .free := by
      simp [inv.lineage.family.tree.parentLive i q pre]
    obtain ⟨forker, forked, cur⟩ := inv.parents i q pre
    have childPid : (kernel.procs i).pid = _ := family.pid_kept (inUse (by simp [pre])) childAfter
    have parentPid : (kernel.procs q).pid = _ := family.pid_kept parentBefore parentAfter
    refine ⟨forker, List.mem_append_right _ (childPid ▸ forked), ?_⟩
    rcases cur with same | ⟨isInit, exited⟩
    · exact .inl (parentPid.trans same)
    refine .inr ⟨isInit.trans (step_globals ran).2.symm, ?_⟩
    rw [List.map_append]
    exact List.mem_append_right _ exited
  · have parentBefore : s.kernel.family.stage q ≠ .free := by
      simp [Kernel.family, inv.lineage.inv.stage_live (a := .cpu c) running]
    have childBefore : s.kernel.family.stage i ≠ .free := by
      intro free
      obtain ⟨np, used, pid, _⟩ := inv.lineage.fork_event ran event
      have pos := inv.lineage.pids.used np (by simp [used])
      rw [pid, inv.lineage.pids.free i (ProcState.stage_free.mp free)] at pos
      cases pos
    have childPid : (kernel.procs i).pid = _ := family.pid_kept childBefore childAfter
    have parentPid : (kernel.procs q).pid = _ := family.pid_kept parentBefore parentAfter
    refine ⟨(s.kernel.procs q).pid, List.mem_append_left _ ?_, .inl parentPid⟩
    rw [event, childPid]
    exact List.mem_singleton_self _
  obtain ⟨forker, forked, cur⟩ := inv.parents i p pre
  have childPid : (kernel.procs i).pid = _ := family.pid_kept (inUse (by simp [pre])) childAfter
  refine ⟨forker, List.mem_append_right _ (childPid ▸ forked),
    .inr ⟨isInit.trans (step_globals ran).2.symm, ?_⟩⟩
  rw [List.map_append]
  rcases cur with same | ⟨_, exited⟩
  · refine List.mem_append_left _ ?_
    rw [event, ← same]
    exact List.mem_singleton_self _
  · exact List.mem_append_right _ exited

theorem reaps_step :
    (∀ reap ∈ (s.kernel.waitEvent act).toList ++ s.reaps, ∀ i,
      (kernel.procs i).state ≠ .unused → (kernel.procs i).pid ≠ reap.child) ∧
    (((s.kernel.waitEvent act).toList ++ s.reaps).map Reap.child).Nodup := by
  refine (inv.history_step ran Reap.child (Q := fun _ _ => False) (R := fun _ _ => False)
    (fun reap mem => inv.exitsBound _ (inv.right reap mem).exited) inv.gone inv.reapsNodup
    (fun reap event => ?_) fun _ _ _ => id).2
  obtain ⟨_, pp, zombie, _, rfl, free⟩ := inv.lineage.inv.wait_event ran event
  exact ⟨pp, by simp [zombie], rfl, fun _ => id, fun inUse => inUse free⟩

theorem right_step (reap : Reap) (mem : reap ∈ (s.kernel.waitEvent act).toList ++ s.reaps) :
    Right
      { kernel := kernel
        forks := (s.kernel.forkEvent act).toList ++ s.forks
        exits := (s.kernel.exitEvent act).toList ++ s.exits
        reaps := (s.kernel.waitEvent act).toList ++ s.reaps } reap := by
  have old : s.Right reap := by
    rcases mem_record mem with event | old
    · obtain ⟨p, pp, zombie, isChild, rfl, _⟩ := inv.lineage.inv.wait_event ran event
      obtain ⟨forker, forked, cur⟩ := inv.parents pp p isChild
      refine ⟨inv.zombies pp zombie, by simp [Kernel.reapOf, isChild], forker, forked, ?_⟩
      rcases cur with same | ⟨isInit, exited⟩
      · exact .inl same
      refine .inr ⟨?_, exited⟩
      simp only [Kernel.reapOf, isInit]
      exact inv.lineage.initPid
    · exact inv.right reap old
  obtain ⟨forker, forked, cur⟩ := old.forker
  refine ⟨List.mem_append_right _ old.exited, old.parent, forker, List.mem_append_right _ forked, ?_⟩
  refine cur.imp_right fun exited => ⟨exited.1, ?_⟩
  rw [List.map_append]
  exact List.mem_append_right _ exited.2

end Step

theorem step (inv : s.Inv) (plain : act.threadCall = false)
    (ran : s.step act = some s') : s'.Inv := by
  obtain ⟨_, kernelStep, rfl⟩ := Option.map_eq_some_iff.mp ran
  obtain ⟨exitsBound, exited, exitsNodup⟩ := inv.exits_step kernelStep
  obtain ⟨forksBound, forked, forksNodup⟩ := inv.forks_step kernelStep
  obtain ⟨gone, reapsNodup⟩ := inv.reaps_step kernelStep
  exact
    { lineage := (inv.lineage.step (inv.single.leavesCpu act) kernelStep).1
      single := inv.single.step plain kernelStep
      zombies := inv.zombies_step kernelStep
      exitsBound := exitsBound
      exited := exited
      exitsNodup := exitsNodup
      forksBound := forksBound
      forked := forked
      forksNodup := forksNodup
      parents := inv.parents_step kernelStep
      right := inv.right_step kernelStep
      gone := gone
      reapsNodup := reapsNodup }

/-- After a `wait` whose `copyout` fails, the next `wait` returns the child. -/
theorem copyout_failed (inv : s.Inv) {p pp : ProcId} (runs : s.kernel.executing c = some (p, t))
    (found : firstZombie s.kernel.procs p = some pp)
    (ran : s.step (.proc c (.wait false)) = some s') :
    s'.kernel.procs pp = s.kernel.procs pp ∧ s'.reaps = s.reaps ∧
      ∃ s'', s'.step (.proc c (.wait true)) = some s'' ∧
        s''.reaps = s.kernel.reapOf p pp :: s.reaps := by
  obtain ⟨kernel, kernelStep, rfl⟩ := Option.map_eq_some_iff.mp ran
  have zombie := (firstZombie_spec found).2
  have notActor : pp ≠ p := by
    rintro rfl
    have notOff := inv.lineage.inv.running_not_off (exec_running runs).1
    rw [zombie] at notOff
    cases notOff
  have res : kernel = s.kernel.setCont p .kernel := by
    obtain ⟨_, _, effect, executes', acted, rfl⟩ := proc_step_cases kernelStep
    cases runs.symm.trans executes'
    have moved : effect = .continues (s.kernel.setCont p .kernel) := by
      simp only [Kernel.procAction, Kernel.wait, found] at acted
      split at acted <;> simp_all
    rw [moved, Kernel.finish]
  subst res
  -- The move of the caller is invisible to a search for zombies.
  have same : ∀ i, ((s.kernel.setCont p .kernel).procs i).parent = (s.kernel.procs i).parent ∧
      ((s.kernel.setCont p .kernel).procs i).state = (s.kernel.procs i).state := by
    intro i
    rw [setCont_procs]
    split
    · rename_i isActor
      rw [isActor]
      exact ⟨rfl, rfl⟩
    · exact ⟨rfl, rfl⟩
  have foundAgain : firstZombie (s.kernel.setCont p .kernel).procs p = some pp := by
    rw [← found]
    simp only [firstZombie, (same _).1, (same _).2]
  have executesAgain : (s.kernel.setCont p .kernel).executing c = some (p, t) := runs
  have sameReap : (s.kernel.setCont p .kernel).reapOf p pp = s.kernel.reapOf p pp := by
    have pids : ∀ i, ((s.kernel.setCont p .kernel).procs i).pid = (s.kernel.procs i).pid := by
      intro i
      rw [setCont_procs]
      split
      · rename_i isActor
        rw [isActor]
      · rfl
    simp only [Kernel.reapOf, pids, (same pp).1]
    rw [setCont_procs, if_neg notActor]
  refine ⟨by rw [setCont_procs, if_neg notActor], rfl, ?_⟩
  have enabled : (s.kernel.setCont p .kernel).procAction p (.wait true) =
      some ((s.kernel.setCont p .kernel).wait p true) := by
    simp [Kernel.procAction, setCont_procs]
  refine ⟨_, by simp only [Reaping.step, Kernel.step, executesAgain, enabled]; rfl, ?_⟩
  simp [Kernel.waitEvent, executesAgain, foundAgain, sameReap]

end Inv

end Reaping

/-- In every run without thread calls: no child is returned by two calls of `wait`; a `wait`
that returns a child is called by its parent at that moment, which forked it or is the first
process, and returns the status passed to `exit`; a `wait` whose `copyout` fails leaves the
child to the next one; and a zombie stays in the table until a `wait` returns it. -/
theorem reaped_once (n : Nat) (s : Reaping n)
    (run : Run Reaping.step (fun _ act => act.threadCall = false) (Reaping.boot n) s) :
    ((s.reaps.map Reap.child).Nodup ∧ (s.exits.map Prod.fst).Nodup ∧ (s.forks.map Prod.fst).Nodup) ∧
    (∀ reap ∈ s.reaps, s.Right reap) ∧
    (∀ c p t pp s', s.kernel.executing c = some (p, t) →
      firstZombie s.kernel.procs p = some pp → s.step (.proc c (.wait false)) = some s' →
        s'.kernel.procs pp = s.kernel.procs pp ∧ s'.reaps = s.reaps ∧
          ∃ s'', s'.step (.proc c (.wait true)) = some s'' ∧
            s''.reaps = s.kernel.reapOf p pp :: s.reaps) ∧
    ∀ act s', s.step act = some s' → ∀ i, (s.kernel.procs i).state = .zombie →
      ((s'.kernel.procs i).state = .zombie ∧ (s'.kernel.procs i).pid = (s.kernel.procs i).pid ∧
        (s'.kernel.procs i).xstate = (s.kernel.procs i).xstate) ∨
      ∃ reap, s'.reaps = reap :: s.reaps ∧ reap.child = (s.kernel.procs i).pid ∧
        reap.status = (s.kernel.procs i).xstate := by
  have inv : s.Inv := run.invariant Reaping.boot_inv
    fun inv plain ran => inv.step plain ran
  refine ⟨⟨inv.reapsNodup, inv.exitsNodup, inv.forksNodup⟩, inv.right,
    fun c p t pp s' runs found ran => inv.copyout_failed runs found ran,
    fun act s' ran i zombie => ?_⟩
  obtain ⟨_, kernelStep, rfl⟩ := Option.map_eq_some_iff.mp ran
  rcases inv.lineage.inv.zombie_step kernelStep zombie with kept | ⟨_, reap, event, child, status⟩
  · exact .inl kept
  · exact .inr ⟨reap, by simp [event], child, status⟩

/-- A child exits with status 7; the first `wait` of its parent fails in
`copyout`, the second one returns it. -/
theorem reaped_once_second_wait :
    ∃ s : Reaping 2, Run Reaping.step (fun _ act => act.threadCall = false)
      (Reaping.boot 2) s ∧
        s.reaps = [{ caller := 1, parent := some 1, child := 2, status := 7 }] ∧
        (s.reaps.map Reap.child).Nodup ∧ ∀ reap ∈ s.reaps, s.Right reap := by
  obtain ⟨s, run, ret⟩ := exists_run_of_runChecked Reaping.step
    (fun _ act => act.threadCall = false) (Reaping.boot 2)
    (childExits 7 ++ [.proc 0 (.wait false), .proc 0 (.wait true)])
    (P := fun s => s.reaps = [{ caller := 1, parent := some 1, child := 2, status := 7 }])
    (by decide +kernel)
  exact ⟨s, run, ret, (reaped_once 2 s run).1.1, (reaped_once 2 s run).2.1⟩

end CustomXv6

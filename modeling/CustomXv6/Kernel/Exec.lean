/-
Module: CustomXv6.Kernel.Exec
Purpose: What exec (kernel/exec.c) leaves of the threads of a process.
Trusted boundary: human-reviewed spec
Main exports: ExecRun.step, exec_leaves_one_thread
-/
import CustomXv6.Kernel.Registers

namespace CustomXv6

open Transition
open Function

/-!
`exec` replaces the page table and three registers of `p->trapframe`, and does not look at the
thread table: the scheduler will load the saved registers of the other threads into the new
address space.  The registers of a thread stay with its slot (`carries_giveUp`), so for every
slot it is noted for which address space they were set up last.
-/

/-- A process with the address spaces it has had: `space` counts the calls of `exec` that
succeeded, `madeIn` says for which space the registers of each slot were set up, and `caller`
is the thread that entered the kernel last. -/
structure ExecRun where
  user : UserRun
  caller : ThreadId
  space : Nat
  madeIn : ThreadId → Nat

namespace ExecRun

def proc (s : ExecRun) : Proc := s.user.run.proc

/-- The notes after an event: user code sets up registers for the address space it runs in, and
`exec` for the new one. -/
def observe (s : ExecRun) (event : UserEvent) (after : UserRun) : ExecRun :=
  match s.user.phase, event with
  | _, .trap _ _ =>
    { s with
      user := after
      caller := s.proc.loaded
      madeIn := update s.madeIn s.proc.loaded s.space }
  | .handler _ a0 a1 a2, .createThread kalloc1 kalloc2 =>
    match s.proc.createThread a0 a1 a2 kalloc1 kalloc2 with
    | some (tid, _) =>
      { s with
        user := after
        madeIn := fun k => if (k.val : Int) + 1 = tid then s.space else s.madeIn k }
    | none => { s with user := after }
  | _, .exec (some _) =>
    { s with
      user := after
      space := s.space + 1
      madeIn := update s.madeIn s.proc.loaded (s.space + 1) }
  | _, _ => { s with user := after }

def step (s : ExecRun) (event : UserEvent) : Option ExecRun :=
  (s.user.step event).map (s.observe event)

/-- An executing process that returns to user mode now. -/
def start (run : ThreadRun) : ExecRun :=
  { user := { run := run, phase := .user }
    caller := run.proc.loaded
    space := 0
    madeIn := fun _ => 0 }

/-- The condition on a call of `exec`: when `syscall` reads its number, no slot
but the caller's holds a thread. -/
def callsAlone (s : ExecRun) : UserEvent → Bool
  | .dispatch =>
    s.proc.trapframe.all fun frame =>
      argint frame.a7 ≠ sysExec ∨ ∀ k, k ≠ s.caller → (s.proc.threads k).state = .free
  | _ => true

end ExecRun

/-! ### Who executes after a switch -/

namespace Proc

/-- `current_thread` points to a slot that holds a thread. -/
def Occupied (p : Proc) : Prop := ∃ t, p.currentThread = some t ∧ (p.threads t).state ≠ .free

theorem Occupied.loaded {p : Proc} (occupied : p.Occupied) :
    (p.threads p.loaded).state ≠ .free := by
  obtain ⟨_, cur, held⟩ := occupied
  rw [loaded_of_current cur]
  exact held

/-- A dispatch of a process with threads. -/
theorem enterThreads_occupied {p p' : Proc} {t : ThreadId}
    (entered : p.enterThreads = some (p', some t)) :
    p'.Occupied ∧ ∀ k, (p.threads k).state = .free → (p'.threads k).state = .free := by
  obtain ⟨_, savedEq, looped⟩ := Option.bind_eq_some_iff.mp entered
  obtain ⟨_, states⟩ := saveCurrent_states savedEq
  obtain ⟨cur, runnable, running, others⟩ := threadLoop_states looped
  refine ⟨⟨t, cur, by simp [running]⟩, fun k free => ?_⟩
  have other : k ≠ t := by
    rintro rfl
    cases runnable.symm.trans ((states k).trans free)
  rw [others k other, states k, free]

theorem redispatch_occupied {p : Proc} {run : ThreadRun} (resumed : p.redispatch = .running run) :
    (run.proc = p ∧ p.currentThread = none ∨ run.proc.Occupied) ∧
      ∀ k, (p.threads k).state = .free → (run.proc.threads k).state = .free := by
  rw [redispatch] at resumed
  split at resumed
  · rename_i single
    cases resumed
    exact ⟨.inl ⟨rfl, single⟩, fun _ => id⟩
  split at resumed
  · cases resumed
  · cases resumed
  rename_i entered
  cases resumed
  exact (enterThreads_occupied entered).imp_left .inr

end Proc

variable {p p' : Proc} {tid : Int}

/-- After giving up the CPU a process executes with a thread of its table, or it has none. -/
theorem giveUp_occupied (run : ThreadRun) {run' : ThreadRun}
    (loop : ∀ t, run.loop = some t → run.proc.currentThread = some t)
    (resumed : run.giveUp.executing = some run') :
    (run'.proc = run.proc ∧ run.proc.currentThread = none ∨ run'.proc.Occupied) ∧
      ∀ k, (run.proc.threads k).state = .free → (run'.proc.threads k).state = .free := by
  have running : run.giveUp = .running run' := by
    cases gaveUp : run.giveUp with
    | running =>
      rw [gaveUp] at resumed
      cases resumed
      rfl
    | _ =>
      rw [gaveUp] at resumed
      cases resumed
  rw [ThreadRun.giveUp] at running
  split at running
  · exact Proc.redispatch_occupied running
  rename_i t loopEq
  have threaded := loop t loopEq
  split at running
  · cases running
  · rename_i left ended
    obtain ⟨cur, states, _⟩ := Proc.afterSwtch_states ended
    obtain ⟨occupied, free⟩ := Proc.redispatch_occupied running
    refine ⟨.inr (occupied.resolve_left fun single => ?_), fun k freeSlot => free k ?_⟩
    · cases (cur.trans threaded).symm.trans single.2
    · rcases states k with same | ⟨wasRunning, _⟩
      · exact same.trans freeSlot
      · cases wasRunning.symm.trans freeSlot
  rename_i entered next looped
  cases running
  obtain ⟨left, leftEq, loopedEq⟩ := Option.bind_eq_some_iff.mp looped
  obtain ⟨_, others, _, kept⟩ := Proc.leaveThread_states leftEq
  obtain ⟨cur, runnable, nowRunning, rest⟩ := Proc.threadLoop_states loopedEq
  refine ⟨.inr ⟨next, cur, by simp [nowRunning]⟩, fun k freeSlot => ?_⟩
  have leftFree : (left.threads k).state = .free := by
    by_cases same : k = t
    · subst same
      exact (kept (by simp [freeSlot])).trans freeSlot
    · exact (others k same).trans freeSlot
  have other : k ≠ next := by
    rintro rfl
    cases runnable.symm.trans leftFree
  rw [rest k other, leftFree]

variable {call : ThreadCall}

/-- A thread call leaves the executing slot as it was, or switches to a slot
that holds a thread. -/
theorem finishCall_occupied {run run' : ThreadRun} {value : Int}
    (loop : ∀ t, run.loop = some t → run.proc.currentThread = some t)
    (cur : ∀ p, call = .failed p ∨ call = .yields p → p.currentThread = run.proc.currentThread)
    (failed : ∀ p, call = .failed p → run.proc.Occupied → p.Occupied)
    (done : run.finishCall call = some (run', value)) :
    run'.proc.loaded = run.proc.loaded ∧ (run.proc.Occupied → run'.proc.Occupied) ∨
      run'.proc.Occupied := by
  cases call with
  | fault => cases done
  | failed p =>
    cases done
    refine .inl ⟨?_, failed p rfl⟩
    rw [Proc.loaded, Proc.loaded, cur p (.inl rfl)]
  | yields p =>
    obtain ⟨_, executing, pairEq⟩ := Option.map_eq_some_iff.mp done
    cases pairEq
    have same := cur p (.inr rfl)
    rcases (giveUp_occupied { run with proc := p }
      (fun t looped => same.trans (loop t looped)) executing).1 with ⟨procEq, single⟩ | held
    · refine .inl ⟨?_, ?_⟩
      · rw [procEq, Proc.loaded, Proc.loaded, same]
      · rintro ⟨t, threaded, _⟩
        cases (same.trans threaded).symm.trans single
    · exact .inr held

theorem Proc.joinThread_failed (failed : p.joinThread tid = .failed p') (occupied : p.Occupied) :
    p'.Occupied := by
  rw [joinThread] at failed
  split at failed
  · cases failed
    exact occupied
  · split at failed <;> cases failed

theorem Proc.exitThread_failed (failed : p.exitThread tid = .failed p') (occupied : p.Occupied) :
    p'.Occupied := by
  have woken : ∀ {argument : Int}, p.exitT argument = .failed p' → p'.Occupied := by
    intro argument exited
    have same : p' = p.wakeJoiners argument := by
      rcases exitT_cases p argument with ⟨outcome, _⟩ | ⟨_, _, ⟨outcome, _⟩ | ⟨outcome, _⟩⟩ <;>
        cases outcome.symm.trans exited <;> rfl
    subst same
    obtain ⟨t, cur, held⟩ := occupied
    refine ⟨t, cur, ?_⟩
    simp only [wakeJoiners, wakeJoiner]
    split
    · simp
    · exact held
  rw [exitThread] at failed
  split at failed
  · split at failed
    · cases failed
    · exact woken failed
  · exact woken failed

/-- `create_thread` in a process with threads: only the new thread gets registers. -/
theorem Proc.createSecond_slots {startRoutine arg pstack : UInt64} {kalloc : Bool}
    (free : p.FreeNull)
    (made : p.createSecond startRoutine arg pstack kalloc false = some (tid, p')) :
    p'.FreeNull ∧ p'.trapframe = p.trapframe ∧ p'.currentThread = p.currentThread ∧
      (p.Occupied → p'.Occupied) ∧
      ∀ k : ThreadId, p'.registers k ≠ none → (k.val : Int) + 1 = tid ∨ p.registers k ≠ none := by
  rw [createSecond] at made
  split at made
  · cases made
    exact ⟨free, rfl, rfl, id, fun _ => .inr⟩
  rename_i t found
  have freeSlot := firstFree_state found
  split at made
  · obtain ⟨_, madeEq, pairEq⟩ := Option.map_eq_some_iff.mp made
    obtain ⟨_, _, rfl⟩ := Option.map_eq_some_iff.mp madeEq
    cases pairEq
    refine ⟨free.setThread t _ fun never => ?_, rfl, rfl, ?_, fun k has => ?_⟩
    · cases never
    · rintro ⟨c, cur, held⟩
      have other : c ≠ t := by
        rintro rfl
        exact held freeSlot
      refine ⟨c, cur, ?_⟩
      rw [setThread_threads, update_of_ne other]
      exact held
    · by_cases same : k = t
      · exact .inl (by rw [same])
      · refine .inr ?_
        rwa [registers, frame_setThread_of_ne same] at has
  · simp only [setThread_clear (free t freeSlot)] at made
    cases made
    exact ⟨free, rfl, rfl, id, fun _ => .inr⟩

/-- What `create_thread` means for the slots. -/
theorem Proc.createThread_slots {startRoutine arg pstack : UInt64} {kalloc1 kalloc2 : Bool}
    (free : p.FreeNull)
    (made : p.createThread startRoutine arg pstack kalloc1 kalloc2 = some (tid, p')) :
    p'.FreeNull ∧ p'.trapframe = p.trapframe ∧ p'.loaded = p.loaded ∧
      (∀ t, p.currentThread = some t → p'.currentThread = some t) ∧
      (p.Occupied → p'.Occupied) ∧
      ∀ k : ThreadId, p'.registers k ≠ none → (k.val : Int) + 1 = tid ∨ p.registers k ≠ none := by
  cases cur : p.currentThread with
  | none =>
    have creates := createThread_creates free
      (fun t threaded => by cases cur.symm.trans threaded) made
    refine ⟨creates.free, creates.trapframe, creates.loaded, fun t never => ?_,
      fun ⟨t, threaded, _⟩ => ?_, fun k has => ?_⟩
    · cases never
    · cases cur.symm.trans threaded
    rw [creates.registers k] at has
    split at has
    · rename_i isNew
      exact .inl isNew
    split at has
    · exact .inr has
    · exact absurd rfl has
  | some =>
    rw [createThread, cur] at made
    obtain ⟨freeNull, trapframe, same, occupied, registers⟩ := createSecond_slots free made
    refine ⟨freeNull, trapframe, ?_, fun t threaded => ?_, occupied, registers⟩
    · rw [loaded, loaded, same]
    · rw [same, cur, threaded]

namespace ExecRun

/-- The invariant of a process whose calls of `exec` are all made alone. -/
structure Inv (s : ExecRun) : Prop where
  loop : ∀ t, s.user.run.loop = some t → s.proc.currentThread = some t
  free : s.proc.FreeNull
  framed : s.proc.trapframe ≠ none
  cur : ∀ k, s.proc.registers k ≠ none → s.madeIn k = s.space
  called : s.user.phase ≠ .user → s.proc.loaded = s.caller ∨ s.proc.Occupied
  alone : ∀ a0 a1 a2, s.user.phase = .handler sysExec a0 a1 a2 →
    ∀ k, k ≠ s.caller → (s.proc.threads k).state = .free

variable {s : ExecRun}
variable {phase : Phase} {run : ThreadRun}

variable {caller : ThreadId} {madeIn : ThreadId → Nat} {space : Nat}

section

variable (inv : s.Inv)
include inv

/-- A step that sets up no registers. -/
theorem Inv.quiet (keeps : s.proc.Keeps run.proc)
    (loop : ∀ t, run.loop = some t → run.proc.currentThread = some t)
    (called : phase ≠ .user → run.proc.loaded = s.caller ∨ run.proc.Occupied)
    (alone : ∀ a0 a1 a2, phase = .handler sysExec a0 a1 a2 →
      ∀ k, k ≠ s.caller → (run.proc.threads k).state = .free) :
    Inv { s with user := ⟨run, phase⟩ } := by
  refine ⟨loop, keeps.free, keeps.framed inv.framed, fun k has => ?_, called, alone⟩
  refine inv.cur k fun lost => has ?_
  change run.proc.registers k = none
  rw [keeps.registers k, lost, ite_self]

theorem Inv.same (inKernel : s.user.phase ≠ .user)
    (alone : ∀ a0 a1 a2, phase = .handler sysExec a0 a1 a2 →
      ∀ k, k ≠ s.caller → (s.proc.threads k).state = .free) :
    Inv { s with user := ⟨s.user.run, phase⟩ } :=
  ⟨inv.loop, inv.free, inv.framed, inv.cur, fun _ => inv.called inKernel, alone⟩

/-- The process gives up the CPU in the kernel. -/
theorem Inv.giveUp (inKernel : s.user.phase ≠ .user)
    (executing : s.user.run.giveUp.executing = some run)
    (call : ∀ a0 a1 a2, phase = .handler sysExec a0 a1 a2 → s.user.phase = phase) :
    Inv { s with user := ⟨run, phase⟩ } := by
  obtain ⟨carried, loop⟩ := carries_giveUp s.user.run inv.free inv.loop executing
  obtain ⟨runs, free⟩ := giveUp_occupied s.user.run inv.loop executing
  refine inv.quiet carried.keeps loop (fun _ => ?_) fun a0 a1 a2 phaseEq k other => ?_
  · rcases runs with ⟨procEq, _⟩ | occupied
    · rw [procEq]
      exact inv.called inKernel
    · exact .inr occupied
  · exact free k (inv.alone a0 a1 a2 ((call a0 a1 a2 phaseEq).trans phaseEq) k other)

/-- A thread call ends. -/
theorem Inv.finishCall {ended : ThreadRun × Int} (inKernel : s.user.phase ≠ .user)
    (leaves : ∀ p, call = .failed p ∨ call = .yields p → s.proc.Leaves p)
    (failed : ∀ p, call = .failed p → s.proc.Occupied → p.Occupied)
    (done : s.user.run.finishCall call = some ended)
    (out : ∀ a0 a1 a2, phase ≠ .handler sysExec a0 a1 a2) :
    Inv { s with user := ⟨ended.1, phase⟩ } := by
  obtain ⟨keeps, loop⟩ := finishCall_keeps inv.loop leaves done
  have runs := finishCall_occupied inv.loop
    (fun p called => (leaves p called).choose_spec.2.2.2) failed done
  refine inv.quiet keeps loop (fun _ => ?_) fun a0 a1 a2 phaseEq => absurd phaseEq (out a0 a1 a2)
  rcases runs with ⟨loaded, occupied⟩ | occupied
  · rw [loaded]
    exact (inv.called inKernel).imp_right occupied
  · exact .inr occupied

variable {change : UserRegs → UserRegs}

/-- A store into `p->trapframe`, for the address space `space`. -/
theorem Inv.stored (stored : s.user.run.store change = some run)
    (loaded : madeIn s.proc.loaded = space)
    (others : ∀ k, k ≠ s.proc.loaded → s.proc.registers k ≠ none → madeIn k = space)
    (called : phase ≠ .user → s.proc.loaded = caller ∨ s.proc.Occupied)
    (out : ∀ a0 a1 a2, phase ≠ .handler sysExec a0 a1 a2) :
    Inv ⟨⟨run, phase⟩, caller, space, madeIn⟩ := by
  obtain ⟨_, _, free, framed, _, _, _, sameOthers⟩ := store_registers inv.free stored
  obtain ⟨_, _, rfl⟩ := Option.map_eq_some_iff.mp stored
  refine ⟨fun t looped => inv.loop t looped, free, framed, fun k has => ?_, called,
    fun a0 a1 a2 phaseEq => absurd phaseEq (out a0 a1 a2)⟩
  by_cases same : k = s.proc.loaded
  · rw [same]
    exact loaded
  · refine others k same fun lost => has ?_
    exact (sameOthers k same).trans lost

/-- The registers in `p->trapframe` belong to the current address space. -/
theorem Inv.loaded : s.madeIn s.proc.loaded = s.space := by
  refine inv.cur _ ?_
  rw [Proc.registers, Proc.frame_loaded]
  simpa using inv.framed

/-- A store of the trap code into `p->trapframe`. -/
theorem Inv.restored (stored : s.user.run.store change = some run)
    (inKernel : s.user.phase ≠ .user) (out : ∀ a0 a1 a2, phase ≠ .handler sysExec a0 a1 a2) :
    Inv { s with user := ⟨run, phase⟩ } :=
  inv.stored stored inv.loaded (fun k _ has => inv.cur k has) (fun _ => inv.called inKernel)
    out

end

theorem Inv.setkilled (inv : Inv ⟨⟨run, phase⟩, caller, space, madeIn⟩) :
    Inv ⟨⟨{ run with proc := { run.proc with killed := true } }, phase⟩, caller, space, madeIn⟩ :=
  ⟨inv.loop, inv.free, inv.framed, inv.cur, inv.called, inv.alone⟩

/-- `usertrap` stores the program counter and calls no `exec`. -/
theorem Inv.usertrap (inv : s.Inv) {sepc : UInt64} {cause : Cause} {after : UserRun}
    (phase : s.user.phase = .entered sepc cause)
    (trapped : s.user.usertrap sepc cause = some after) : Inv { s with user := after } := by
  obtain ⟨run, stored, rest⟩ := Option.bind_eq_some_iff.mp trapped
  have inKernel : s.user.phase ≠ .user := by simp [phase]
  have left : Inv { s with user := ⟨run, .leaving cause⟩ } := inv.restored stored inKernel nofun
  cases cause with
  | syscall =>
    simp only at rest
    split at rest
    · cases rest
    · obtain ⟨_, storedAgain, rfl⟩ := Option.map_eq_some_iff.mp rest
      exact left.restored storedAgain (by simp) nofun
  | timer =>
    cases rest
    exact left
  | device =>
    cases rest
    exact left
  | unexpected =>
    simp only at rest
    split at rest
    · obtain ⟨_, done, rfl⟩ := Option.map_eq_some_iff.mp rest
      exact left.finishCall (by simp) (fun p called => Proc.exitThread_leaves left.free called)
        (fun p failed => Proc.exitThread_failed failed) done
        nofun
    · cases rest
      exact left.setkilled

/-- A process in `exec` that was called alone executes its only thread. -/
theorem Inv.execs_alone (inv : s.Inv) {a0 a1 a2 : UInt64}
    (execs : s.user.phase = .handler sysExec a0 a1 a2) :
    s.proc.loaded = s.caller ∧ ∀ k, k ≠ s.proc.loaded → s.proc.registers k = none := by
  have others := inv.alone a0 a1 a2 execs
  have loaded : s.proc.loaded = s.caller := by
    rcases inv.called (by simp [execs]) with loaded | occupied
    · exact loaded
    · by_contra other
      exact occupied.loaded (others _ other)
  refine ⟨loaded, fun k other => ?_⟩
  rw [Proc.registers, Proc.frame_of_ne other, inv.free k (others k (loaded ▸ other))]
  rfl

/-- Every step that meets the condition keeps the invariant. -/
theorem Inv.step (inv : s.Inv) {event : UserEvent} {s' : ExecRun}
    (callsAlone : s.callsAlone event = true) (ran : s.step event = some s') : s'.Inv := by
  obtain ⟨_, userStepped, rfl⟩ := Option.map_eq_some_iff.mp ran
  obtain ⟨_, caller, space, madeIn⟩ := s
  cases userStep_cases userStepped with
  | @trap _ _ _ _ stored =>
    refine inv.stored stored (update_self ..) (fun k other has => ?_)
      (fun _ => .inl rfl) nofun
    exact (update_of_ne other ..).trans (inv.cur k has)
  | deadlineYield _ _ _ _ executing =>
    exact inv.giveUp (by simp) executing nofun
  | usertrap _ _ trapped => exact inv.usertrap rfl trapped
  | @dispatch _ frame has =>
    refine inv.same (by simp) fun a0 a1 a2 phaseEq k other => ?_
    simp only [ExecRun.callsAlone, ExecRun.proc, has, Option.all_some] at callsAlone
    have isExec : argint frame.a7 = sysExec := by injection phaseEq
    simp only [isExec, ne_eq, not_true_eq_false, false_or, decide_eq_true_eq] at callsAlone
    exact callsAlone k other
  | @createThread run a0 a1 a2 kalloc1 kalloc2 tid p made =>
    obtain ⟨free, trapframe, loaded, threaded, occupied, registers⟩ :=
      Proc.createThread_slots inv.free made
    simp only [observe, proc, made]
    refine ⟨fun t looped => threaded t (inv.loop t looped), free, ?_, fun k has => ?_, fun _ => ?_,
      nofun⟩
    · change p.trapframe ≠ none
      rw [trapframe]
      exact inv.framed
    · change (if (k.val : Int) + 1 = tid then space else madeIn k) = space
      split_ifs with old
      · rfl
      · exact inv.cur k ((registers k has).resolve_left old)
    · change p.loaded = caller ∨ p.Occupied
      rw [loaded]
      exact (inv.called (by simp)).imp_right occupied
  | joinThread _ _ _ _ done =>
    exact inv.finishCall (by simp) (fun p called => Proc.joinThread_leaves inv.free called)
      (fun p failed => Proc.joinThread_failed failed) done
      nofun
  | exitThread _ _ _ _ done =>
    exact inv.finishCall (by simp) (fun p called => Proc.exitThread_leaves inv.free called)
      (fun p failed => Proc.exitThread_failed failed) done
      nofun
  | execFails => exact inv.same (by simp) nofun
  | @exec _ _ _ _ _ _ _ _ stored =>
    obtain ⟨loaded, others⟩ := inv.execs_alone rfl
    refine inv.stored stored (update_self ..) (fun k other has => ?_)
      (fun _ => .inl loaded) nofun
    exact absurd (others k other) has
  | otherCall =>
    exact inv.same (by simp) nofun
  | giveUp phase blocks executing =>
    refine inv.giveUp (fun atUser => ?_) executing fun _ _ _ _ => rfl
    rw [show phase = .user from atUser] at blocks
    cases blocks
  | storeResult _ stored =>
    exact inv.restored stored (by simp) nofun
  | timerYield executing =>
    exact inv.giveUp (by simp) executing nofun
  | killedTest => exact inv.same (by simp) nofun
  | usertrapret => exact inv.same (by simp) nofun
  | kill =>
    exact inv.setkilled

end ExecRun

/-! ### One thread after exec -/

/-- In any run in which `exec` is called only while no slot but the caller's holds a thread, a
successful `exec` leaves no other thread either, and the registers loaded at any time were set
up for the current address space. -/
theorem exec_leaves_one_thread (run : ThreadRun)
    (loop : ∀ t, run.loop = some t → run.proc.currentThread = some t)
    (free : ∀ t, (run.proc.threads t).state = .free → (run.proc.threads t).trapframe = none)
    (framed : run.proc.trapframe ≠ none) (s : ExecRun)
    (reached : Run ExecRun.step (fun s event => s.callsAlone event = true) (ExecRun.start run) s) :
    (∀ image s', s.step (.exec (some image)) = some s' →
      ∀ k, k ≠ s'.caller → (s'.proc.threads k).state = .free) ∧
      s.madeIn s.proc.loaded = s.space := by
  have started : (ExecRun.start run).Inv :=
    ⟨loop, free, framed, fun _ _ => rfl, fun inKernel => absurd rfl inKernel, nofun⟩
  have inv : s.Inv := reached.invariant started fun inv alone ran => inv.step alone ran
  refine ⟨fun image s' ran k other => ?_, inv.loaded⟩
  obtain ⟨_, userStepped, rfl⟩ := Option.map_eq_some_iff.mp ran
  obtain ⟨_, _⟩ := s
  cases userStep_cases userStepped with
  | exec a0 a1 a2 _ _ _ stored =>
    obtain ⟨_, _, rfl⟩ := Option.map_eq_some_iff.mp stored
    exact inv.alone a0 a1 a2 rfl k other

def execCall : UserRegs := { (default : UserRegs) with epc := 80, a7 := 7 }

def exitCall : UserRegs := { (default : UserRegs) with epc := 96, a0 := -1, a7 := 26 }

/-- A timer interrupt at address 20, with which the process moves on to its
next thread. -/
def timerTick : List UserEvent :=
  [.trap { createCall with epc := 20 } .timer, .usertrap, .killedTest, .usertrapret]

/-- The second thread of a process has exited when the first one calls
`exec`. -/
theorem exec_leaves_one_thread_exited :
    ∃ s, Run ExecRun.step (fun s event => s.callsAlone event = true)
        (ExecRun.start { proc := freshProc, loop := none }) s ∧
      (s.step (.exec (some (16, 8192, 1)))).isSome ∧
      (∀ s', s.step (.exec (some (16, 8192, 1))) = some s' →
        ∀ k, k ≠ s'.caller → (s'.proc.threads k).state = .free) ∧
      s.madeIn s.proc.loaded = s.space := by
  obtain ⟨s, run, execs⟩ := exists_run_of_runChecked ExecRun.step
    (fun s event => ExecRun.callsAlone s event = true)
    (ExecRun.start { proc := freshProc, loop := none })
    (createOne ++ timerTick ++ timerTick ++
      [.trap exitCall .syscall, .usertrap, .dispatch, .exitThread, .storeResult, .killedTest,
        .usertrapret, .trap execCall .syscall, .usertrap, .dispatch, .giveUp])
    (P := fun s => (s.step (.exec (some (16, 8192, 1)))).isSome) (by decide +kernel)
  have leaves := exec_leaves_one_thread { proc := freshProc, loop := none }
    nofun (fun t _ => rfl) (by simp [freshProc]) s run
  exact ⟨s, run, execs, fun s' => leaves.1 (16, 8192, 1) s', leaves.2⟩

/-- A process with two threads calls `exec`: a later dispatch loads the registers of the other
thread, with the entry point of the old program, into the new address space. -/
theorem exec_leaves_old_thread :
    (∃ s s', Run ExecRun.step (fun _ _ => True)
        (ExecRun.start { proc := freshProc, loop := none }) s ∧
      s.step (.exec (some (16, 8192, 1))) = some s' ∧
      s'.caller = 0 ∧ (s'.proc.threads 1).state = .runnable) ∧
    ∃ s, Run ExecRun.step (fun _ _ => True)
        (ExecRun.start { proc := freshProc, loop := none }) s ∧
      s.user.phase = .user ∧ s.space = 1 ∧ s.proc.loaded = 1 ∧ s.madeIn 1 = 0 ∧
      s.proc.trapframe.map (·.epc) = some 64 := by
  constructor
  · obtain ⟨s, run, left⟩ := exists_run_of_runFrom ExecRun.step
      (ExecRun.start { proc := freshProc, loop := none })
      (createOne ++ [.trap execCall .syscall, .usertrap, .dispatch])
      (P := fun s : ExecRun => (s.step (.exec (some (16, 8192, 1)))).any fun s' =>
        s'.caller = 0 ∧ (s'.proc.threads 1).state = .runnable) (by decide +kernel)
    obtain ⟨s', ran, still⟩ := (Option.any_eq_true _ _).mp left
    exact ⟨s, s', run, ran, of_decide_eq_true still⟩
  exact exists_run_of_runFrom _ _ (createOne ++ [.trap execCall .syscall, .usertrap, .dispatch,
        .exec (some (16, 8192, 1)), .storeResult, .killedTest, .usertrapret] ++ timerTick ++
        timerTick) (by decide +kernel)

end CustomXv6

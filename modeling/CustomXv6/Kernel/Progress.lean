/-
Module: CustomXv6.Kernel.Progress
Purpose: Whether a process with threads that waits for a CPU has a thread to run.
Trusted boundary: human-reviewed spec
Main exports: Kernel.ThreadInv, threads_progress
-/
import CustomXv6.Kernel.Partition

namespace CustomXv6

open Transition
open Function

variable {n : Nat} {x y z : Proc}

/-!
Nothing stops the last thread that can run from joining itself or from exiting: the process
stays `RUNNABLE`, and every dispatch of it finds no thread.  The conditions below are on the
thread calls alone; the schedulers may interleave in any way.
-/

namespace Proc

/-- The thread loop finds a thread to switch to. -/
def HasRunnable (x : Proc) : Prop := ∃ t, (x.threads t).state = .runnable

/-- `join_thread` leaves another thread to run, and `current_thread` is not at a
freed slot. -/
def joinLeaves (x : Proc) : Bool :=
  x.currentThread.all fun caller =>
    (x.threads caller).state ≠ .free ∧ ∃ t, t ≠ caller ∧ (x.threads t).state = .runnable

/-- `exit_thread` leaves a thread to run: another one that is runnable, that
waits for the thread that exits, or that is executing the call itself.  The
argument of `exit_t` is not 0, which is the id of the free slots. -/
def exitLeaves (x : Proc) (tid : Int) (own : Option ThreadId) : Bool :=
  (x.exitArgument tid).all fun argument =>
    argument ≠ 0 ∧ (x.currentThread = none ∨ ∃ t, (x.threads t).id ≠ argument ∧
      ((x.threads t).state = .runnable ∨ (x.threads t).join = argument ∨
        (own = some t ∧ (x.threads t).state = .running)))

end Proc

instance (cpu : Cpu) (p : ProcId) : Decidable (cpu.Refers p) :=
  decidable_of_iff
    ((cpu.pc = .chosen p .pq ∨ cpu.pc = .chosen p .q) ∨ cpu.proc = some p) <| by
      constructor
      · rintro ((chosen | chosen) | runs)
        · exact .inl ⟨_, chosen⟩
        · exact .inl ⟨_, chosen⟩
        · exact .inr runs
      rintro (⟨src, chosen⟩ | runs)
      · cases src
        · exact .inl (.inl chosen)
        · exact .inl (.inr chosen)
      · exact .inr runs

namespace Kernel

/-- Some CPU is inside the process: in a thread that will be runnable again, or stopped. -/
def Holds (s : Kernel n) (p : ProcId) : Prop :=
  ∃ c, (s.cpus c).proc = some p ∧
    ((∃ t, (s.cpus c).pc = .swtched (some t) ∧ ((s.procs p).threads t).state = .running) ∨
      ∃ reason, (s.cpus c).pc = .panicked reason)

/-- No scheduler but that of `c` can reach the process. -/
def reachedOnlyBy (s : Kernel n) (c : Fin n) (p : ProcId) : Bool :=
  !s.pq.holds p && !decide (p ∈ s.q.toList) &&
    decide (∀ c', c' ≠ c → ¬ (s.cpus c').Refers p)

/-- The condition on the thread calls: the first `create_thread` of a process
does not fail in its second allocation, `join_thread` and `exit_thread` leave a
thread to run, and no process exits that another CPU can still dispatch. -/
def keepsThreads (s : Kernel n) : Action n → Bool
  | .proc c act =>
    match s.executing c with
    | none => true
    | some (p, t) =>
      match act with
      | .createThread _ _ _ _ kalloc2 => kalloc2 || (s.procs p).currentThread.isSome
      | .joinThread tid => ((s.procs p).findThread tid).isNone || (s.procs p).joinLeaves
      | .exitThread tid => (s.procs p).exitLeaves tid t
      | .exit _ => s.reachedOnlyBy c p
      | _ => true
  | _ => true

end Kernel

/-! ### The thread calls -/

namespace Proc

def SlotsOk (x : Proc) : Prop := ∀ t, ThreadSlotOk t (x.threads t)

variable {thread : Thread} {tid argument : Int}

theorem SlotsOk.setThread (slots : x.SlotsOk) {t : ThreadId} (ok : ThreadSlotOk t thread) :
    (x.setThread t thread).SlotsOk := by
  intro t'
  rw [setThread_threads]
  by_cases same : t' = t
  · subst same
    rwa [update_self]
  · rw [update_of_ne same]
    exact slots t'

/-- A new thread is runnable, and the other threads stay as they are. -/
theorem createSecond_progress {startRoutine arg pstack : UInt64} {kalloc flag : Bool}
    (slots : x.SlotsOk) (succeeds : flag = true → kalloc = true)
    (new : x.createSecond startRoutine arg pstack kalloc flag = some (tid, y)) :
    y.SlotsOk ∧ y.currentThread = x.currentThread ∧
      ∀ t, (x.threads t).state ≠ .free → y.threads t = x.threads t := by
  rw [createSecond] at new
  split at new
  · cases new
    exact ⟨slots, rfl, fun _ _ => rfl⟩
  rename_i t found
  have free : (x.threads t).state = .free := by simpa using List.find?_some found
  split at new
  · obtain ⟨_, stored, pairEq⟩ := Option.map_eq_some_iff.mp new
    cases pairEq
    obtain ⟨_, _, rfl⟩ := Option.map_eq_some_iff.mp stored
    refine ⟨slots.setThread ⟨fun _ => ⟨by simp, rfl⟩, (by simp)⟩, rfl, ?_⟩
    intro t' live
    have other : t' ≠ t := by
      rintro rfl
      exact live free
    rw [setThread_threads, update_of_ne other]
  rename_i failed
  have first : flag = false := by
    cases flag with
    | false => rfl
    | true => exact absurd (succeeds rfl) failed
  subst first
  rw [setThread_clear ((slots t).free free).1] at new
  cases new
  exact ⟨slots, rfl, fun _ _ => rfl⟩

/-- `create_thread` leaves all threads that were there, and its first call the
main thread. -/
theorem createThread_progress {startRoutine arg pstack : UInt64} {kalloc1 kalloc2 : Bool}
    (slots : x.SlotsOk) (unthreaded : x.currentThread = none → x.AllFree)
    (succeeds : x.currentThread = none → kalloc2 = true)
    (new : x.createThread startRoutine arg pstack kalloc1 kalloc2 = some (tid, y)) :
    y.SlotsOk ∧ (y.currentThread = none → y.AllFree) ∧
      (x.currentThread = none → y.currentThread ≠ none → y.HasRunnable) ∧
      (x.currentThread ≠ none → ∀ t, (x.threads t).state ≠ .free → y.threads t = x.threads t) := by
  rw [createThread] at new
  split at new
  · rename_i none
    split at new
    · obtain ⟨_, made, second⟩ := Option.bind_eq_some_iff.mp new
      obtain ⟨frame, _, rfl⟩ := Option.map_eq_some_iff.mp made
      have mainSlots : ({ x.setThread 0
          { state := .runnable, trapframe := some frame, id := 1, join := 0 } with
            currentThread := some 0 } : Proc).SlotsOk :=
        slots.setThread ⟨fun _ => ⟨by simp, rfl⟩, (by simp)⟩
      obtain ⟨new, cur, kept⟩ := createSecond_progress mainSlots (fun _ => succeeds none) second
      refine ⟨new, fun lost => ?_, fun _ _ => ⟨0, ?_⟩, fun some => absurd none some⟩
      · rw [cur] at lost
        cases lost
      · rw [kept 0 (by simp)]
        simp
    · cases new
      rw [setThread_clear ((slots 0).free (unthreaded none 0)).1]
      exact ⟨slots, unthreaded, fun _ some => absurd none some, fun some => absurd none some⟩
  rename_i caller some
  obtain ⟨new, cur, kept⟩ := createSecond_progress slots (fun never => by cases never) new
  refine ⟨new, fun lost => ?_, fun none => ?_, fun _ => kept⟩
  · rw [cur, some] at lost
    cases lost
  · rw [some] at none
    cases none

/-- `join_thread` leaves a runnable thread, if there is another one. -/
theorem joinThread_progress (slots : x.SlotsOk)
    (leaves : x.findThread tid = none ∨ x.joinLeaves = true)
    (joined : (x.joinThread tid).record = some y) :
    y = x ∨ y.SlotsOk ∧ y.currentThread ≠ none ∧ y.HasRunnable := by
  rw [joinThread] at joined
  split at joined
  · cases joined
    exact .inl rfl
  rename_i target found
  split at joined
  · cases joined
  rename_i caller cur
  cases joined
  have both := leaves.resolve_left (by simp [found])
  simp only [joinLeaves, cur, Option.all_some, decide_eq_true_eq] at both
  obtain ⟨live, t, other, runnable⟩ := both
  refine .inr ⟨slots.setThread ?_, by simp [cur], t, ?_⟩
  · exact (slots caller).relabel live (by simp) rfl ((slots caller).live live).1
  · rw [setThread_threads, update_of_ne other]
    exact runnable

/-- `exit_t` with a nonzero argument frees a thread with that id and wakes those that wait. -/
theorem exitT_progress (table : x.TableOk) (ne0 : argument ≠ 0)
    (exited : (x.exitT argument).record = some y) :
    y.SlotsOk ∧ y.currentThread = x.currentThread ∧ (x.AllFree → y.AllFree) ∧
      ∀ t, (x.threads t).id ≠ argument → y.threads t = wakeJoiner argument (x.threads t) := by
  obtain ⟨woken, sameFree⟩ := wakeJoiners_ok table fun _ _ => ne0
  have wakes : (x.wakeJoiners argument).SlotsOk ∧
      (x.wakeJoiners argument).currentThread = x.currentThread ∧
      (x.AllFree → (x.wakeJoiners argument).AllFree) ∧ ∀ t, (x.threads t).id ≠ argument →
        (x.wakeJoiners argument).threads t = wakeJoiner argument (x.threads t) :=
    ⟨woken.slots, rfl, fun allFree t => (sameFree t).mpr (allFree t), fun _ _ => rfl⟩
  rcases exitT_cases x argument with
    ⟨failed, _⟩ | ⟨target, idEq, ⟨failed, _⟩ | ⟨yields, live⟩⟩
  · rw [failed] at exited
    cases exited
    exact wakes
  · rw [failed] at exited
    cases exited
    exact wakes
  rw [yields] at exited
  cases exited
  refine ⟨SlotsOk.setThread woken.slots (threadSlotOk_freethread target _), rfl, ?_, ?_⟩
  · intro allFree
    exact absurd ((sameFree target).mpr (allFree target)) live
  intro t ne
  have other : t ≠ target := by
    rintro rfl
    exact ne idEq
  rw [setThread_threads, update_of_ne other]
  rfl

/-- A thread that is runnable, or waits for the thread that exits, is runnable
afterwards. -/
theorem wakeJoiner_runnable (ready : thread.state = .runnable ∨ thread.join = argument) :
    (wakeJoiner argument thread).state = .runnable := by
  rw [wakeJoiner]
  split
  · rfl
  · rename_i elsewhere
    exact ready.resolve_right elsewhere

theorem exitThread_exitT (exited : (x.exitThread tid).record = some y) :
    ∃ argument, x.exitArgument tid = some argument ∧ (x.exitT argument).record = some y := by
  rw [exitThread] at exited
  rw [exitArgument]
  split at exited
  · rename_i own
    split at exited
    · cases exited
    · rename_i t cur
      exact ⟨_, by rw [if_pos own, cur]; rfl, exited⟩
  · rename_i other
    exact ⟨tid, by rw [if_neg other], exited⟩

/-- `exit_thread` leaves a thread to run: a runnable one, or the one that called
it. -/
theorem exitThread_progress {own : Option ThreadId} (table : x.TableOk)
    (leaves : x.exitLeaves tid own = true) (exited : (x.exitThread tid).record = some y) :
    y.SlotsOk ∧ y.currentThread = x.currentThread ∧ (x.AllFree → y.AllFree) ∧
      (x.currentThread = none ∨ y.HasRunnable ∨
        ∃ t, own = some t ∧ (y.threads t).state = .running) := by
  obtain ⟨argument, isArgument, exited⟩ := exitThread_exitT exited
  simp only [exitLeaves, isArgument, Option.all_some, decide_eq_true_eq] at leaves
  obtain ⟨ne0, left⟩ := leaves
  obtain ⟨slots, cur, allFree, threads⟩ := exitT_progress table ne0 exited
  refine ⟨slots, cur, allFree, ?_⟩
  rcases left with none | ⟨t, ne, runnable | waits | ⟨mine, running⟩⟩
  · exact .inl none
  · refine .inr (.inl ⟨t, ?_⟩)
    rw [threads t ne]
    exact wakeJoiner_runnable (.inl runnable)
  · refine .inr (.inl ⟨t, ?_⟩)
    rw [threads t ne]
    exact wakeJoiner_runnable (.inr waits)
  by_cases waits : (x.threads t).join = argument
  · refine .inr (.inl ⟨t, ?_⟩)
    rw [threads t ne]
    exact wakeJoiner_runnable (.inr waits)
  · refine .inr (.inr ⟨t, mine, ?_⟩)
    rw [threads t ne, wakeJoiner, if_neg waits]
    exact running

end Proc

/-! ### The invariant -/

/-- The process is not set up yet, or has exited. -/
def ProcState.outside : ProcState → Bool
  | .unused => true
  | .used => true
  | .zombie => true
  | _ => false

theorem ProcState.ne_of_inside {state other : ProcState} (inside : state.outside = false)
    (outside : other.outside = true) : state ≠ other := by
  rintro rfl
  rw [inside] at outside
  cases outside

/-- No scheduler can reach the process. -/
structure Kernel.Detached (s : Kernel n) (p : ProcId) : Prop where
  heap : p ∉ s.pq.procs
  queue : p ∉ s.q.toList
  cpus : ∀ c, ¬ (s.cpus c).Refers p

/-- What holds of the record of every process. -/
structure Proc.ThreadsOk (x : Proc) : Prop where
  slots : x.SlotsOk
  unthreaded : x.currentThread = none → x.AllFree
  fresh : x.state = .unused ∨ x.state = .used → x.currentThread = none
  inUse : x.state ≠ .unused → x.trapframe ≠ none ∧ x.usageTime ≠ none

theorem Proc.ThreadsOk.of_inside (inside : x.state.outside = false) (slots : x.SlotsOk)
    (unthreaded : x.currentThread = none → x.AllFree) (frame : x.trapframe ≠ none)
    (usage : x.usageTime ≠ none) : x.ThreadsOk := by
  refine ⟨slots, unthreaded, ?_, fun _ => ⟨frame, usage⟩⟩
  rintro (early | early) <;> exact absurd early (ProcState.ne_of_inside inside rfl)

/-- The invariant: a process with threads has one to run, unless a CPU is in
it. -/
structure Kernel.ThreadInv (s : Kernel n) : Prop where
  queueValid : s.q.Valid
  idle : ∀ c, (s.cpus c).pc.inPass → (s.cpus c).proc = none
  forks : ForkInv s.procs
  table : ∀ p, (s.procs p).ThreadsOk
  detached : ∀ p, (s.procs p).state.outside → s.Detached p
  progress : ∀ p, (s.procs p).currentThread ≠ none → (s.procs p).state ≠ .zombie →
    (s.procs p).HasRunnable ∨ s.Holds p

/-- A change that has nothing to do with threads. -/
structure Proc.SameThreads (x y : Proc) : Prop where
  threads : y.threads = x.threads
  currentThread : y.currentThread = x.currentThread
  trapframe : y.trapframe = x.trapframe
  usage : x.usageTime ≠ none → y.usageTime ≠ none
  state : y.state = x.state ∨ (x.state.outside = false ∧ y.state.outside = false)

/-- An entry of the table is taken, readied or freed. -/
structure Proc.Resets (x y : Proc) : Prop where
  outside : x.state.outside
  cur : y.currentThread = none
  slots : y.SlotsOk
  allFree : y.AllFree
  inUse : y.state ≠ .unused → y.trapframe ≠ none ∧ y.usageTime ≠ none

namespace Proc.SameThreads

theorem refl (x : Proc) : x.SameThreads x := ⟨rfl, rfl, rfl, id, .inl rfl⟩

theorem wakes (threads : y.threads = x.threads) (currentThread : y.currentThread = x.currentThread)
    (trapframe : y.trapframe = x.trapframe) (usageTime : y.usageTime = x.usageTime)
    (sleeping : x.state = .sleeping) (state : y.state = .runnable) : x.SameThreads y := by
  refine ⟨threads, currentThread, trapframe, ?_, .inr ⟨?_, ?_⟩⟩
  · rw [usageTime]
    exact id
  · rw [sleeping]
    rfl
  · rw [state]
    rfl

theorem outside_of (keeps : x.SameThreads y) (outside : y.state.outside) : x.state.outside := by
  rcases keeps.state with same | ⟨_, inside⟩
  · rwa [same] at outside
  · rw [inside] at outside
    cases outside

theorem zombie_of (keeps : x.SameThreads y) (zombie : x.state = .zombie) : y.state = .zombie := by
  rcases keeps.state with same | ⟨inside, _⟩
  · rw [same, zombie]
  · exact absurd zombie (ProcState.ne_of_inside inside rfl)

theorem threadsOk (keeps : x.SameThreads y) (ok : x.ThreadsOk) : y.ThreadsOk := by
  have unused : y.state ≠ .unused → x.state ≠ .unused := by
    intro inUse free
    rcases keeps.state with same | ⟨inside, _⟩
    · exact inUse (same.trans free)
    · exact ProcState.ne_of_inside inside rfl free
  refine ⟨?_, ?_, ?_, ?_⟩
  · intro t
    rw [keeps.threads]
    exact ok.slots t
  · intro none t
    rw [keeps.threads]
    exact ok.unthreaded (keeps.currentThread.symm.trans none) t
  · intro early
    rw [keeps.currentThread]
    apply ok.fresh
    rcases keeps.state with same | ⟨_, inside⟩
    · rwa [same] at early
    · rcases early with state | state <;> exact absurd state (ProcState.ne_of_inside inside rfl)
  · intro inUse
    obtain ⟨frame, usage⟩ := ok.inUse (unused inUse)
    exact ⟨keeps.trapframe ▸ frame, keeps.usage usage⟩

end Proc.SameThreads

theorem wakeup_keeps (self : Option ProcId) (chan : Option Chan) (procs : ProcId → Proc)
    (i : ProcId) : (procs i).SameThreads (wakeup self chan procs i) := by
  rcases wakeup_cases self chan procs i with same | ⟨sleeping, woken⟩
  · rw [same]
    exact .refl _
  · rw [woken]
    exact .wakes rfl rfl rfl rfl sleeping rfl

theorem orphan_keeps (initproc p : ProcId) (procs : ProcId → Proc) (i : ProcId) :
    (procs i).SameThreads (orphan initproc p procs i) := by
  rcases orphan_cases initproc p procs i with same | ⟨sleeping, woken⟩
  · rw [same]
    exact ⟨rfl, rfl, rfl, id, .inl rfl⟩
  · rw [woken]
    exact .wakes rfl rfl rfl rfl sleeping rfl

theorem killProc_keeps (x : Proc) : x.SameThreads (killProc x) := by
  by_cases sleeping : x.state = .sleeping
  · exact .wakes rfl rfl rfl rfl sleeping (by simp [killProc, sleeping])
  · exact ⟨rfl, rfl, rfl, id, .inl (by simp [killProc, sleeping])⟩

theorem freeproc_resets (outside : x.state.outside) : x.Resets (freeproc x) := by
  refine ⟨outside, rfl, fun t => ?_, fun _ => rfl, fun inUse => absurd rfl inUse⟩
  exact threadSlotOk_freethread t (x.threads t)

theorem readied_resets {deadline : Option UInt32} (ok : x.ThreadsOk)
    (used : x.state = .used) (readied : x.Readied deadline y) : x.Resets y := by
  have outside : x.state.outside := by
    rw [used]
    rfl
  have unthreaded := ok.fresh (.inr used)
  have inUse := ok.inUse (by simp [used])
  cases deadline with
  | none =>
    cases readied
    exact ⟨outside, unthreaded, ok.slots, ok.unthreaded unthreaded, fun _ => inUse⟩
  | some =>
    obtain ⟨_, _, rfl⟩ := readied
    exact ⟨outside, unthreaded, ok.slots, ok.unthreaded unthreaded, fun _ => ⟨inUse.1, by simp⟩⟩

namespace Kernel

variable {s s' : Kernel n}

theorem Holds.congr {p : ProcId} (holds : s.Holds p) (cpus : s'.cpus = s.cpus)
    (threads : (s'.procs p).threads = (s.procs p).threads) : s'.Holds p := by
  obtain ⟨c, here, inside⟩ := holds
  refine ⟨c, by rw [cpus]; exact here, ?_⟩
  rw [cpus, threads]
  exact inside

namespace ThreadInv

variable {i p : ProcId} {c : Fin n} {t : Option ThreadId} {q : Queue} {cont : Cont}
  {pq : PriorityQueue} {src : Source} {nextpid : Int}

section

variable (inv : s.ThreadInv)
include inv

/-- A step that moves no scheduler.  A process whose threads it changes is set up
and has not exited. -/
theorem change (cpus : s'.cpus = s.cpus) (valid : s'.q.Valid)
    (heap : ∀ p ∈ s'.pq.procs, p ∈ s.pq.procs ∨ (s'.procs p).state.outside = false)
    (queue : ∀ p ∈ s'.q.toList, p ∈ s.q.toList) (forks : ForkInv s'.procs)
    (changes : ∀ p, (s.procs p).SameThreads (s'.procs p) ∨ (s.procs p).Resets (s'.procs p) ∨
      (s'.procs p).state.outside = false ∧ (s'.procs p).ThreadsOk ∧
        ((s'.procs p).currentThread ≠ none → (s'.procs p).HasRunnable ∨ s'.Holds p)) :
    s'.ThreadInv := by
  refine ⟨valid, cpus ▸ inv.idle, forks, ?_, ?_, ?_⟩
  · intro p
    rcases changes p with keeps | resets | ⟨_, table, _⟩
    · exact keeps.threadsOk (inv.table p)
    · exact ⟨resets.slots, fun _ => resets.allFree, fun _ => resets.cur, resets.inUse⟩
    · exact table
  · intro p outside
    have pre : (s.procs p).state.outside := by
      rcases changes p with keeps | resets | ⟨inside, _⟩
      · exact keeps.outside_of outside
      · exact resets.outside
      · simp [inside] at outside
    obtain ⟨notHeap, notQueue, refers⟩ := inv.detached p pre
    refine ⟨fun mem => ?_, fun mem => notQueue (queue p mem), by rw [cpus]; exact refers⟩
    rcases heap p mem with old | inside
    · exact notHeap old
    · simp [inside] at outside
  intro p threaded alive
  rcases changes p with keeps | resets | ⟨_, _, progress⟩
  · rw [keeps.currentThread] at threaded
    have pre := inv.progress p threaded fun zombie => alive (keeps.zombie_of zombie)
    refine pre.imp ?_ fun holds => holds.congr cpus keeps.threads
    rintro ⟨t, runnable⟩
    exact ⟨t, keeps.threads ▸ runnable⟩
  · exact absurd resets.cur threaded
  · exact progress threaded

/-- A step that changes only the table. -/
theorem changeTable {procs : ProcId → Proc} {ticks : UInt32} {stale : Nat} (forks : ForkInv procs)
    (changes : ∀ p, (s.procs p).SameThreads (procs p) ∨ (s.procs p).Resets (procs p)) :
    { s with procs := procs, nextpid := nextpid, ticks := ticks, stale := stale }.ThreadInv :=
  inv.change rfl inv.queueValid (fun _ => .inl) (fun _ => id) forks
    fun p => (changes p).imp_right .inl

/-- The process on a CPU is set up and has not exited. -/
theorem inside (refers : (s.cpus c).Refers p) : (s.procs p).state.outside = false := by
  by_contra outside
  exact (inv.detached p (by simpa using outside)).cpus c refers

theorem in_use (refers : (s.cpus c).Refers p) : (s.procs p).state ≠ .unused :=
  ProcState.ne_of_inside (inv.inside refers) rfl

theorem tableOk (refers : (s.cpus c).Refers p) : (s.procs p).TableOk :=
  ⟨(inv.table p).slots, ((inv.table p).inUse (inv.in_use refers)).1⟩

theorem update_forks (inside : (s.procs p).state.outside = false)
    (forking : x.context.forking = (s.procs p).context.forking ∨ x.context.forking = none) :
    ForkInv (update s.procs p x) :=
  inv.forks.update (fun used => absurd used (ProcState.ne_of_inside inside rfl)) forking

/-- A thread call of the process on a CPU. -/
theorem call (refers : (s.cpus c).Refers p)
    (state : x.state = (s.procs p).state) (trapframe : x.trapframe = (s.procs p).trapframe)
    (usageTime : x.usageTime = (s.procs p).usageTime)
    (forking : x.context.forking = (s.procs p).context.forking ∨ x.context.forking = none)
    (slots : x.SlotsOk) (unthreaded : x.currentThread = none → x.AllFree)
    (progress : x.currentThread ≠ none → x.HasRunnable ∨ (s.setProc p x).Holds p) :
    (s.setProc p x).ThreadInv := by
  have inside : x.state.outside = false := by
    rw [state]
    exact inv.inside refers
  obtain ⟨frame, usage⟩ := (inv.table p).inUse (inv.in_use refers)
  refine inv.change rfl inv.queueValid (fun _ => .inl) (fun _ => id)
    (inv.forks.update (fun used => state.trans used) forking) fun p' => ?_
  by_cases same : p' = p
  · subst same
    rw [setProc_procs, update_self]
    exact .inr (.inr ⟨inside, .of_inside inside slots unthreaded (trapframe ▸ frame)
      (usageTime ▸ usage), progress⟩)
  · rw [setProc_procs, update_of_ne same]
    exact .inl (.refl _)

/-- Processes leave the heap or the quota queue. -/
theorem shrink (valid : q.Valid) (heap : ∀ p, p ∈ pq.procs → p ∈ s.pq.procs)
    (queue : ∀ p, p ∈ q.toList → p ∈ s.q.toList) : { s with pq := pq, q := q }.ThreadInv :=
  inv.change rfl valid (fun p mem => .inl (heap p mem)) queue inv.forks
    fun _ => .inl (.refl _)

/-- A runnable process enters the heap. -/
theorem push (runnable : (s.procs p).state = .runnable)
    (contents : pq.procs = p ::ₘ s.pq.procs) : { s with pq := pq }.ThreadInv := by
  refine inv.change rfl inv.queueValid (fun p' mem => ?_) (fun _ => id) inv.forks
    fun _ => .inl (.refl _)
  rcases Multiset.mem_cons.mp (contents ▸ mem) with rfl | old
  · simp [runnable, ProcState.outside]
  · exact .inl old

/-- A scheduler moves on, chooses a process, or a CPU stops. -/
theorem setPc {pc : SchedPc}
    (chosen : ∀ p src, pc = .chosen p src → (s.procs p).state.outside = false)
    (from' : (s.cpus c).pc.inPass ∨ ∃ reason, pc = .panicked reason) :
    (s.setPc c pc).ThreadInv := by
  have cpuOf : ∀ c', (s.setPc c pc).cpus c' = if c' = c then { s.cpus c with pc := pc } else s.cpus c' := by
    intro c'
    rw [Kernel.setPc, setCpu_cpus, update_apply]
  refine ⟨inv.queueValid, ?_, inv.forks, inv.table, ?_, ?_⟩
  · refine (forall_update_iff s.cpus fun _ cpu => cpu.pc.inPass → cpu.proc = none).mpr
      ⟨fun inPass => ?_, fun c' _ => inv.idle c'⟩
    rcases from' with pre | ⟨_, stopped⟩
    · exact inv.idle c pre
    · simp only [stopped] at inPass
      cases inPass
  · intro p outside
    obtain ⟨heap, queue, cpus⟩ := inv.detached p outside
    refine ⟨heap, queue, fun c' refers => ?_⟩
    rw [cpuOf] at refers
    split at refers
    · rcases refers with ⟨src, chosenEq⟩ | runs
      · have inside := chosen p src chosenEq
        have outside' : (s.procs p).state.outside = true := outside
        rw [inside] at outside'
        cases outside'
      · exact cpus c (.inr runs)
    · exact cpus c' refers
  intro p threaded alive
  refine (inv.progress p threaded alive).imp_right ?_
  rintro ⟨c', here, inside⟩
  refine ⟨c', ?_⟩
  rw [cpuOf]
  split
  · rename_i same
    subst same
    refine ⟨here, .inr ?_⟩
    rcases from' with inPass | stopped
    · rcases inside with ⟨_, swtched, _⟩ | ⟨_, panicked⟩
      · rw [swtched] at inPass
        cases inPass
      · rw [panicked] at inPass
        cases inPass
    · exact stopped
  · exact ⟨here, inside⟩

end

theorem pop_subset {pq' : PriorityQueue} (contents : pq.procs = p ::ₘ pq'.procs) :
    ∀ p', p' ∈ pq'.procs → p' ∈ pq.procs := by
  intro _ mem
  rw [contents]
  exact Multiset.mem_cons_of_mem mem

variable {usage : CpuUsage} {act : ProcAction}

section

variable (inv : s.ThreadInv)
include inv

theorem heap_inside (mem : p ∈ s.pq.procs) : (s.procs p).state.outside = false := by
  by_contra outside
  exact (inv.detached p (by simpa using outside)).heap mem

theorem queue_inside (mem : p ∈ s.q.toList) : (s.procs p).state.outside = false := by
  by_contra outside
  exact (inv.detached p (by simpa using outside)).queue mem

/-- A process that is set up and has not exited changes, but not its threads. -/
theorem keeps (inside : (s.procs p).state.outside = false) (kept : (s.procs p).SameThreads x)
    (forking : x.context.forking = (s.procs p).context.forking ∨ x.context.forking = none) :
    (s.setProc p x).ThreadInv := by
  exact inv.changeTable (inv.update_forks inside forking) fun p' => .inl
    ((forall_update_iff s.procs fun p' => (s.procs p').SameThreads).mpr
      ⟨kept, fun _ _ => .refl _⟩ p')

/-- The state of such a process changes. -/
theorem restate (state : ProcState) (pre : (s.procs p).state.outside = false)
    (after : state.outside = false) : (s.setProc p { s.procs p with state := state }).ThreadInv :=
  inv.keeps pre ⟨rfl, rfl, rfl, id, .inr ⟨pre, after⟩⟩ (.inl rfl)

variable {cpu : Cpu}

/-- CPU `c` enters or leaves process `p`. -/
theorem relocate (refers : (s.cpus c).Refers p) (valid : q.Valid) (queue : ∀ p', p' ∈ q.toList → p' ∈ s.q.toList ∨ p' = p)
    (after : ∀ p', cpu.Refers p' → p' = p)
    (idle : cpu.pc.inPass → cpu.proc = none) (forks : ForkInv (update s.procs p x))
    (table : x.ThreadsOk)
    (outside : x.state.outside → (({ s with q := q }.setProc p x).setCpu c cpu).Detached p)
    (progress : x.currentThread ≠ none → x.state ≠ .zombie →
      x.HasRunnable ∨ (({ s with q := q }.setProc p x).setCpu c cpu).Holds p) :
    (({ s with q := q }.setProc p x).setCpu c cpu).ThreadInv := by
  have procOf : ∀ p', (({ s with q := q }.setProc p x).setCpu c cpu).procs p' =
      if p' = p then x else s.procs p' := by
    intro p'
    rw [setCpu_procs, setProc_procs, update_apply]
  have cpuOf : ∀ c', (({ s with q := q }.setProc p x).setCpu c cpu).cpus c' =
      if c' = c then cpu else s.cpus c' := by
    intro c'
    rw [setCpu_cpus, setProc_cpus, update_apply]
  refine ⟨valid, ?_, forks, ?_, ?_, ?_⟩
  · exact (forall_update_iff s.cpus fun _ cpu => cpu.pc.inPass → cpu.proc = none).mpr
      ⟨idle, fun c' _ => inv.idle c'⟩
  · exact (forall_update_iff s.procs fun _ => Proc.ThreadsOk).mpr ⟨table, fun p' _ => inv.table p'⟩
  · intro p' out
    by_cases same : p' = p
    · subst same
      rw [procOf, if_pos rfl] at out
      exact outside out
    rw [procOf, if_neg same] at out
    obtain ⟨heap, notQueue, cpus⟩ := inv.detached p' out
    refine ⟨heap, fun mem => ?_, fun c' refers => ?_⟩
    · exact (queue p' mem).elim notQueue same
    · rw [cpuOf] at refers
      split at refers
      · exact same (after p' refers)
      · exact cpus c' refers
  intro p' threaded alive
  by_cases same : p' = p
  · subst same
    rw [procOf, if_pos rfl] at threaded alive ⊢
    exact progress threaded alive
  rw [procOf, if_neg same] at threaded alive ⊢
  refine (inv.progress p' threaded alive).imp_right ?_
  rintro ⟨c', here, inside⟩
  have other : c' ≠ c := by
    rintro rfl
    rcases refers with ⟨_, choosing⟩ | running
    · cases (inv.idle c' (by rw [choosing]; rfl)).symm.trans here
    · exact same (Option.some.inj (here.symm.trans running))
  refine ⟨c', ?_⟩
  rw [cpuOf, if_neg other, procOf, if_neg same]
  exact ⟨here, inside⟩

/-! ### The schedulers -/

/-- A dispatch that switches to the process. -/
theorem enters (choosing : (s.cpus c).pc = .chosen p src)
    (same : ({ s.procs p with state := .running } : Proc).SameCore x)
    (unthreaded : (s.procs p).currentThread = none →
      t = none ∧ x = { s.procs p with state := .running })
    (entered : (s.procs p).currentThread ≠ none → t ≠ none ∧
      ({ s.procs p with state := .running } : Proc).enterThreads = some (x, t)) :
    ((s.setProc p { x with usageTime := some usage, chan := none }).setCpu c
      { proc := some p, pc := .swtched t }).ThreadInv := by
  have refers : (s.cpus c).Refers p := .inl ⟨src, choosing⟩
  have table := inv.tableOk refers
  have tableRunning : ({ s.procs p with state := .running } : Proc).TableOk :=
    ⟨table.slots, table.frame⟩
  have inside : x.state.outside = false := by
    rw [same.state]
    rfl
  have forks : ForkInv (update s.procs p { x with usageTime := some usage, chan := none }) :=
    inv.update_forks (inv.inside refers) (.inl (by rw [← same.context]))
  have record : x.SlotsOk ∧ (x.currentThread = none → x.AllFree) ∧ x.trapframe ≠ none ∧
      (x.currentThread ≠ none → ∃ t', t = some t' ∧ (x.threads t').state = .running) := by
    by_cases threaded : (s.procs p).currentThread = none
    · obtain ⟨_, rfl⟩ := unthreaded threaded
      exact ⟨table.slots, fun _ => (inv.table p).unthreaded threaded, table.frame,
        fun some => absurd threaded some⟩
    obtain ⟨notNone, looped⟩ := entered threaded
    obtain ⟨_, _, eq, ok, switched⟩ := tableRunning.enterThreads
    rw [looped] at eq
    cases eq
    obtain ⟨t', rfl⟩ := Option.ne_none_iff_exists'.mp notNone
    obtain ⟨cur, running⟩ := switched t' rfl
    exact ⟨ok.slots, fun lost => by simp [cur] at lost, ok.frame, fun _ => ⟨t', rfl, running⟩⟩
  obtain ⟨slots, free, frame, running⟩ := record
  refine inv.relocate refers inv.queueValid (fun _ => .inl) ?_ ?_ forks ?_ ?_ ?_
  · rintro _ (⟨_, never⟩ | here)
    · cases never
    · exact (Option.some.inj here).symm
  · intro never
    cases never
  · exact .of_inside inside slots free frame (by simp)
  · intro outside
    rw [inside] at outside
    cases outside
  intro threaded _
  obtain ⟨t', rfl, isRunning⟩ := running threaded
  refine .inr ⟨c, ?_, .inl ⟨t', ?_, ?_⟩⟩
  · simp
  · simp
  · simpa using isRunning

/-- A dispatch that finds no thread, or stops at a null pointer. -/
theorem enterFails (choosing : (s.cpus c).pc = .chosen p src)
    (same : ({ s.procs p with state := .running } : Proc).SameCore x)
    (trapframe : x.trapframe ≠ none) (slots : x.SlotsOk)
    (cur : x.currentThread = (s.procs p).currentThread)
    (states : ∀ t, (x.threads t).state = ((s.procs p).threads t).state) {state : ProcState}
    (inside : state.outside = false)
    (after : cpu = { proc := none, pc := .scan 0 } ∨
      cpu = { proc := some p, pc := .panicked .nullPointer }) :
    ((s.setProc p { x with state := state }).setCpu c cpu).ThreadInv := by
  have refers : (s.cpus c).Refers p := .inl ⟨src, choosing⟩
  have atRest : (s.cpus c).proc = none := inv.idle c (by rw [choosing]; rfl)
  have pre := inv.inside refers
  refine inv.relocate refers inv.queueValid (fun _ => .inl) ?_ ?_ ?_ ?_ ?_ ?_
  · rcases after with rfl | rfl <;> rintro _ (⟨_, never⟩ | here)
    · cases never
    · cases here
    · cases never
    · exact (Option.some.inj here).symm
  · rcases after with rfl | rfl <;> intro inPass
    · rfl
    · cases inPass
  · exact inv.update_forks pre (.inl (by rw [← same.context]))
  · refine .of_inside inside slots (fun unthreaded t => ?_) trapframe ?_
    · rw [states]
      exact (inv.table p).unthreaded (cur.symm.trans unthreaded) t
    · simp only [same.usageTime]
      exact ((inv.table p).inUse (inv.in_use refers)).2
  · intro outside
    rw [inside] at outside
    cases outside
  intro threaded _
  rcases after with rfl | rfl
  · refine (inv.progress p (cur ▸ threaded) (ProcState.ne_of_inside pre rfl)).imp ?_ ?_
    · rintro ⟨t, runnable⟩
      exact ⟨t, (states t).trans runnable⟩
    rintro ⟨c', here, within⟩
    have other : c' ≠ c := by
      rintro rfl
      rw [atRest] at here
      cases here
    refine ⟨c', by simpa [update_of_ne other] using here, ?_⟩
    simpa [update_of_ne other, states] using within
  · exact .inr ⟨c, by simp, .inr ⟨.nullPointer, by simp⟩⟩

theorem schedStep (step : SchedStep s c s') : s'.ThreadInv := by
  cases step with
  | moves _ _ inPass after =>
    refine inv.setPc ?_ (.inl inPass)
    rintro p src rfl
    cases after
  | pushes _ _ _ scanning runnable _ contents after =>
    refine (inv.push runnable contents).setPc ?_ (.inl ?_)
    · rintro p' src rfl
      rcases after with ⟨_, never⟩ | never <;> cases never
    show (s.cpus c).pc.inPass
    rw [scanning]
    rfl
  | drops p _ _ _ contents =>
    have popped : p ∈ s.pq.procs := contents ▸ Multiset.mem_cons_self _ _
    exact (inv.shrink inv.queueValid (pop_subset contents) fun _ => id).restate .dropped
      (inv.heap_inside popped) rfl
  | chooses p _ _ popping contents =>
    have popped : p ∈ s.pq.procs := contents ▸ Multiset.mem_cons_self _ _
    refine ((inv.shrink inv.queueValid (pop_subset contents) fun _ => id).restate .chosenToRun
      (inv.heap_inside popped) rfl).setPc ?_ (.inl ?_)
    · intro p' src chosen
      cases chosen
      simp [ProcState.outside]
    · show (s.cpus c).pc.inPass
      rw [popping]
      rfl
  | unparks p q popping popped =>
    obtain ⟨contents, valid⟩ := pop_some inv.queueValid popped
    have first : p ∈ s.q.toList := contents ▸ (.head _)
    have rest : ∀ p', p' ∈ q.toList → p' ∈ s.q.toList := by
      intro p' mem
      rw [contents]
      exact .tail p mem
    refine (inv.shrink valid (fun _ => id) rest).setPc ?_ (.inl ?_)
    · intro p' src chosen
      cases chosen
      exact inv.queue_inside first
    · show (s.cpus c).pc.inPass
      rw [popping]
      rfl
  | enters _ _ _ _ _ choosing same _ unthreaded entered =>
    exact inv.enters choosing same unthreaded entered
  | rests p src _ choosing same _ _ entered =>
    have table := inv.tableOk (.inl ⟨src, choosing⟩)
    have tableRunning : ({ s.procs p with state := .running } : Proc).TableOk :=
      ⟨table.slots, table.frame⟩
    obtain ⟨after, stop, eq, ok, _⟩ := tableRunning.enterThreads
    rw [entered] at eq
    cases eq
    obtain ⟨cur, states⟩ := Proc.enterThreads_states entered
    exact inv.enterFails choosing same ok.frame ok.slots cur states rfl (.inl rfl)
  | faults _ src choosing =>
    have table := inv.tableOk (.inl ⟨src, choosing⟩)
    exact inv.enterFails choosing (.refl _) table.frame table.slots rfl (fun _ => rfl) rfl (.inr rfl)
  | stops =>
    exact inv.setPc nofun (.inr ⟨_, rfl⟩)

/-! ### The processes -/

/-- The quota queue after the limit tests. -/
theorem limitedQueue_subset (p : ProcId) (pre after : ProcState) :
    (s.limitedQueue p pre after).Valid ∧
      (∀ p' ∈ (s.limitedQueue p pre after).toList, p' ∈ s.q.toList ∨ p' = p) ∧
      (after ≠ .passedQuota → s.limitedQueue p pre after = s.q) := by
  rw [limitedQueue]
  split
  · rename_i parked
    obtain ⟨valid, contents⟩ := enqueue_subset inv.queueValid p
    exact ⟨valid, contents, fun other => absurd parked.2 other⟩
  · exact ⟨inv.queueValid, fun _ => .inl, fun _ => rfl⟩

end

/-- The state after the limit tests. -/
theorem limited_outside {ticks : UInt32} {pre after : ProcState}
    (lim : Limited ticks usage pre after) : after.outside = pre.outside := by
  cases lim <;> rfl

/-- What the thread loop has done to the table when the scheduler leaves the
process. -/
structure Left (s : Kernel n) (p : ProcId) (t : Option ThreadId) (y : Proc) : Prop where
  slots : y.SlotsOk
  frame : y.trapframe ≠ none
  usage : y.usageTime ≠ none
  cur : y.currentThread = (s.procs p).currentThread
  states : ∀ t', (y.threads t').state = ((s.procs p).threads t').state ∨
    ((s.procs p).threads t').state = .running ∧ (y.threads t').state = .runnable
  own : y.state ≠ .zombie → ∀ t', t = some t' →
    ((s.procs p).threads t').state = .running → (y.threads t').state = .runnable

section

variable (inv : s.ThreadInv) (executes : s.executing c = some (p, t))
include inv executes

/-- The end of a pass. -/
theorem leaves (left : Left s p t y)
    (valid : q.Valid) (queue : ∀ p' ∈ q.toList, p' ∈ s.q.toList ∨ p' = p)
    (forking : y.context.forking = (s.procs p).context.forking ∨ y.context.forking = none)
    (stopped : y.state.outside = false ∨ y.state = .zombie ∧ s.reachedOnlyBy c p ∧ q = s.q) :
    ({ s with q := q }.leave c p y).ThreadInv := by
  obtain ⟨here, pc⟩ := exec_running executes
  have pre := inv.inside (.inr here)
  rw [leave]
  generalize recordEq : (if y.state = .running then { y with state := .runnable } else y) = z
  have same : z.threads = y.threads ∧ z.currentThread = y.currentThread ∧
      z.trapframe = y.trapframe ∧ z.usageTime = y.usageTime ∧ z.context = y.context ∧
      z.state.outside = y.state.outside ∧ (z.state = .zombie ↔ y.state = .zombie) := by
    subst recordEq
    split
    · rename_i running
      simp [running, ProcState.outside]
    · exact ⟨rfl, rfl, rfl, rfl, rfl, rfl, Iff.rfl⟩
  obtain ⟨threads, cur, frame, usage, context, outside, sameZombie⟩ := same
  refine inv.relocate (.inr here) valid queue ?_ (fun _ => rfl) ?_ ?_ ?_ ?_
  · rintro p' (⟨_, never⟩ | never) <;> cases never
  · exact inv.update_forks pre (context ▸ forking)
  · refine ⟨?_, ?_, ?_, ?_⟩
    · intro t'
      rw [threads]
      exact left.slots t'
    · intro unthreaded t'
      have free := (inv.table p).unthreaded
        (left.cur.symm.trans (cur.symm.trans unthreaded)) t'
      rw [threads]
      rcases left.states t' with same | ⟨running, _⟩
      · rw [same, free]
      · rw [free] at running
        cases running
    · intro early
      rcases stopped with inside | ⟨zombie, _⟩
      · rw [← outside] at inside
        rcases early with state | state <;> exact absurd state (ProcState.ne_of_inside inside rfl)
      · rcases early with state | state <;> cases state.symm.trans (sameZombie.mpr zombie)
    · intro _
      rw [frame, usage]
      exact ⟨left.frame, left.usage⟩
  · intro isOutside
    rw [outside] at isOutside
    rcases stopped with inside | ⟨_, only, unparked⟩
    · rw [inside] at isOutside
      cases isOutside
    simp only [reachedOnlyBy, Bool.and_eq_true, Bool.not_eq_true', decide_eq_false_iff_not,
      decide_eq_true_eq] at only
    obtain ⟨⟨notHeap, notQueue⟩, others⟩ := only
    refine ⟨?_, ?_, ?_⟩
    · intro mem
      have held : s.pq.holds p = true := PriorityQueue.holds_iff.mpr mem
      rw [held] at notHeap
      cases notHeap
    · intro mem
      exact notQueue (unparked ▸ mem)
    intro c' refers
    by_cases same : c' = c
    · subst same
      simp [Cpu.Refers] at refers
    · rw [setCpu_cpus, update_of_ne same] at refers
      exact others c' same refers
  intro threaded notZombie
  have alive : (s.procs p).state ≠ .zombie := ProcState.ne_of_inside pre rfl
  have live : y.state ≠ .zombie := fun zombie => notZombie (sameZombie.mpr zombie)
  have runnable : ∀ t', (y.threads t').state = .runnable → z.HasRunnable := by
    intro t' ready
    exact ⟨t', threads ▸ ready⟩
  rcases inv.progress p (left.cur ▸ cur ▸ threaded) alive with
    ⟨t', ready⟩ | ⟨c', there, inside⟩
  · left
    rcases left.states t' with same | ⟨_, ready'⟩
    · exact runnable t' (same.trans ready)
    · exact runnable t' ready'
  by_cases same : c' = c
  · subst same
    rcases inside with ⟨t', swtched, running⟩ | ⟨_, panicked⟩
    · have loop : t = some t' := by
        rw [pc] at swtched
        exact SchedPc.swtched.inj swtched
      exact .inl (runnable t' (left.own live t' loop running))
    · rw [pc] at panicked
      cases panicked
  have cpu : ((({ s with q := q }.setProc p z).setCpu c { proc := none, pc := .scan 0 }).cpus c') =
      s.cpus c' := by
    rw [setCpu_cpus, update_of_ne same]
    rfl
  rcases inside with ⟨t', swtched, running⟩ | stopped
  · rcases left.states t' with kept | ⟨_, ready⟩
    · refine .inr ⟨c', cpu ▸ there, .inl ⟨t', cpu ▸ swtched, ?_⟩⟩
      rw [setCpu_procs, setProc_procs, update_self, threads, kept]
      exact running
    · exact .inl (runnable t' ready)
  · exact .inr ⟨c', cpu ▸ there, .inr (cpu ▸ stopped)⟩

/-- The thread loop goes on to another thread. -/
theorem reenters {t' : ThreadId}
    (slots : y.SlotsOk) (frame : y.trapframe ≠ none) (cur : y.currentThread = some t')
    (running : (y.threads t').state = .running) (usage : y.usageTime ≠ none) (valid : q.Valid)
    (queue : ∀ p' ∈ q.toList, p' ∈ s.q.toList ∨ p' = p)
    (forking : y.context.forking = (s.procs p).context.forking ∨ y.context.forking = none)
    (inside : y.state.outside = false) : ({ s with q := q }.enter c p (some t') y).ThreadInv := by
  obtain ⟨here, _⟩ := exec_running executes
  have pre := inv.inside (.inr here)
  obtain ⟨_, has⟩ := Option.ne_none_iff_exists'.mp usage
  simp only [enter, has]
  refine inv.relocate (.inr here) valid queue ?_ ?_ ?_ ?_ ?_ ?_
  · rintro _ (⟨_, never⟩ | there)
    · cases never
    · exact (Option.some.inj there).symm
  · intro never
    cases never
  · exact inv.update_forks pre forking
  · refine .of_inside inside slots (fun lost => ?_) frame (by simp)
    simp only [cur] at lost
    cases lost
  · intro outside
    simp only [inside] at outside
    cases outside
  · intro _ _
    exact .inr ⟨c, by simp, .inl ⟨t', by simp, by simpa using running⟩⟩

/-- `sched`, called by the process on CPU `c`.  A process that exits is out of
reach of the other CPUs. -/
theorem sched (threads : x.threads = (s.procs p).threads)
    (currentThread : x.currentThread = (s.procs p).currentThread)
    (trapframe : x.trapframe = (s.procs p).trapframe)
    (forking : x.context.forking = (s.procs p).context.forking ∨ x.context.forking = none)
    (stopped : x.state.outside = false ∨ x.state = .zombie ∧ s.reachedOnlyBy c p) :
    (s.sched c p t x).ThreadInv := by
  have table := inv.tableOk (.inr (exec_running executes).1)
  have tableAfter : ∀ (state : ProcState) (usage : Option CpuUsage),
      ({ x with state := state, usageTime := usage } : Proc).TableOk := by
    intro state usage
    refine ⟨fun t' => ?_, ?_⟩
    · simp only [threads]
      exact table.slots t'
    · simp only [trapframe]
      exact table.frame
  have zombieOr : ∀ {usage : CpuUsage} {state : ProcState},
      Limited s.ticks usage x.state state → state.outside = true → state = .zombie := by
    intro usage state lim outside
    rw [limited_outside lim] at outside
    rcases stopped with inside | ⟨zombie, _⟩
    · rw [inside] at outside
      cases outside
    rw [zombie] at lim
    cases lim
    rfl
  have returned := sched_cases s c p t x
  generalize s.sched c p t x = s' at returned ⊢
  cases returned with
  | panics => exact inv.setPc nofun (.inr ⟨_, rfl⟩)
  | leaves usage state y has lim same unthreaded left =>
    obtain ⟨valid, queue, kept⟩ := inv.limitedQueue_subset p x.state state
    have isState : y.state = state := same.state
    have outside : y.state.outside = x.state.outside := by
      rw [isState]
      exact limited_outside lim
    refine inv.leaves executes ?_ valid queue (same.context ▸ forking) ?_
    · -- either the table is as it was, or the thread loop has left the thread
      have unchanged : y = { x with
          state := state, usageTime := some (usage.settled s.ticksAt) } →
          (t = none ∨ y.state = .zombie) → Left s p t y := by
        rintro rfl why
        refine ⟨?_, ?_, by simp, currentThread, fun t' => .inl ?_, ?_⟩
        · intro t'
          simp only [threads]
          exact table.slots t'
        · rw [trapframe]
          exact table.frame
        · simp only [threads]
        intro live t' loop
        rcases why with none | zombie
        · rw [none] at loop
          cases loop
        · exact absurd zombie live
      cases t with
      | none => exact unchanged (unthreaded rfl) (.inl rfl)
      | some t' =>
        rcases left t' rfl with ⟨gone, eq⟩ | looped
        · refine unchanged eq (.inr (isState.trans (zombieOr lim ?_)))
          rcases gone with zombie | unused
          · rw [zombie]
            rfl
          · rw [unused]
            rfl
        obtain ⟨_, _, looped', ok, _⟩ := (tableAfter state _).afterSwtch t'
        rw [looped] at looped'
        cases looped'
        obtain ⟨cur, states, own⟩ := Proc.afterSwtch_states looped
        simp only [threads] at states own
        refine ⟨ok.slots, ok.frame, ?_, cur.trans currentThread, states, ?_⟩
        · rw [same.usageTime]
          simp
        · intro _ t'' loop running
          cases loop
          exact own running
    rcases stopped with inside | ⟨zombie, only⟩
    · exact .inl (outside ▸ inside)
    have after : state = .zombie := by
      rw [zombie] at lim
      cases lim
      rfl
    exact .inr ⟨isState.trans after, only, kept (by simp [after])⟩
  | reenters _ state _ t' t'' _ lim _ alive left =>
    obtain ⟨valid, queue, _⟩ := inv.limitedQueue_subset p x.state state
    obtain ⟨_, _, eq, ok, switched⟩ := (tableAfter state _).afterSwtch t'
    rw [left] at eq
    cases eq
    have same := Proc.SameCore.afterSwtch left
    obtain ⟨cur, running⟩ := switched t'' rfl
    refine inv.reenters executes ok.slots ok.frame cur running ?_ valid queue
      (same.context ▸ forking) ?_
    · rw [same.usageTime]
      simp
    rw [same.state]
    by_contra outside
    exact alive (zombieOr lim (by simpa using outside))

end

/-- A step that changes an entry `i` of the table, and where process `p` is in
its code. -/
theorem pair (inv : s.ThreadInv)
    (changed : (s.procs i).SameThreads y ∨ (s.procs i).Resets y ∧ i ≠ p)
    (forks : ForkInv (({ s with nextpid := nextpid }.setProc i y).setCont p cont).procs) :
    (({ s with nextpid := nextpid }.setProc i y).setCont p cont).ThreadInv := by
  refine inv.changeTable forks fun p' => ?_
  have entry : (s.procs p').SameThreads (update s.procs i y p') ∨
      (s.procs p').Resets (update s.procs i y p') ∧ p' ≠ p := by
    rw [update_apply]
    split
    · rename_i same
      subst same
      exact changed
    · exact .inl (.refl _)
  rw [update_apply]
  split
  · rename_i same
    subst same
    rcases entry with keeps | ⟨_, ne⟩
    · exact .inl ⟨keeps.threads, keeps.currentThread, keeps.trapframe, keeps.usage, keeps.state⟩
    · exact absurd rfl ne
  · exact entry.imp_right And.left

/-- Such a step outside the set-up of a new process. -/
theorem pair_forks (inv : s.ThreadInv) (used : (s.procs i).state = .used → y.state = .used)
    (context : y.context = (s.procs i).context)
    (forking : cont.forking = (s.procs p).context.forking ∨ cont.forking = none) :
    ForkInv (({ s with nextpid := nextpid }.setProc i y).setCont p cont).procs := by
  have contextOf : (update s.procs i y p).context = (s.procs p).context := by
    rw [update_apply]
    split
    · rename_i same
      rw [same, context]
    · rfl
  have first : ForkInv (update s.procs i y) := inv.forks.update used (.inl (by rw [context]))
  exact first.update (fun used => used) (by rw [contextOf]; exact forking)

theorem pair_procs' (ne : i ≠ p) :
    (({ s with nextpid := nextpid }.setProc i y).setCont p cont).procs =
      update (update s.procs i y) p { s.procs p with context := cont } := by
  simp [Kernel.setCont, Ne.symm ne]

variable (inv : s.ThreadInv)
include inv

/-- A thread call of the process on CPU `c`. -/
theorem threadCall (executes : s.executing c = some (p, t))
    (keepsThreads : s.keepsThreads (.proc c act)) (res : act.ThreadResult (s.procs p) x)
    (same : (s.procs p).SameCall x) (plain : cont.forking = none) :
    (s.setProc p { x with context := cont }).ThreadInv := by
  have refers : (s.cpus c).Refers p := .inr (exec_running executes).1
  have ok := inv.table p
  have alive : (s.procs p).state ≠ .zombie := ProcState.ne_of_inside (inv.inside refers) rfl
  -- a thread that is RUNNING stays so if the call leaves the live slots alone
  have holds : ∀ {x' : Proc},
      (∀ t', ((s.procs p).threads t').state = .running → (x'.threads t').state = .running) →
      s.Holds p → (s.setProc p x').Holds p := by
    rintro _ kept ⟨c', here, ⟨t', swtched, running⟩ | panicked⟩
    · refine ⟨c', here, .inl ⟨t', swtched, ?_⟩⟩
      rw [setProc_procs, update_self]
      exact kept t' running
    · exact ⟨c', here, .inr panicked⟩
  have finish := fun slots unthreaded progress =>
    inv.call (x := { x with context := cont }) refers same.state same.trapframe same.usageTime
      (.inr plain) slots unthreaded progress
  cases act with
  | createThread =>
    obtain ⟨_, new⟩ := res
    simp only [Kernel.keepsThreads, executes, Bool.or_eq_true] at keepsThreads
    obtain ⟨slots, unthreaded, first, later⟩ := Proc.createThread_progress ok.slots ok.unthreaded
      (fun single => keepsThreads.resolve_right (by simp [single])) new
    refine finish slots unthreaded fun threaded => ?_
    by_cases single : (s.procs p).currentThread = none
    · exact .inl (first single threaded)
    refine (inv.progress p single alive).imp ?_ (holds fun t' running => ?_)
    · rintro ⟨t', runnable⟩
      exact ⟨t', (congrArg Thread.state (later single t' (by simp [runnable]))).trans runnable⟩
    · exact (congrArg Thread.state (later single t' (by simp [running]))).trans running
  | joinThread =>
    simp only [Kernel.keepsThreads, executes, Bool.or_eq_true, Option.isNone_iff_eq_none]
      at keepsThreads
    rcases Proc.joinThread_progress ok.slots keepsThreads res with unchanged |
      ⟨slots, threaded, runnable⟩
    · subst unchanged
      refine finish ok.slots ok.unthreaded fun threaded => ?_
      exact (inv.progress p threaded alive).imp_right (holds fun _ running => running)
    · exact finish slots (fun single => absurd single threaded) fun _ => .inl runnable
  | exitThread =>
    simp only [Kernel.keepsThreads, executes] at keepsThreads
    obtain ⟨slots, cur, allFree, progress⟩ :=
      Proc.exitThread_progress (inv.tableOk refers) keepsThreads res
    refine finish slots (fun single => ?_) fun threaded => ?_
    · exact allFree (ok.unthreaded (cur.symm.trans single))
    rcases progress with single | runnable | ⟨t', own, running⟩
    · exact absurd (cur.trans single) threaded
    · exact .inl runnable
    refine .inr ⟨c, (exec_running executes).1, .inl ⟨t', ?_, ?_⟩⟩
    · rw [← own]
      exact (exec_running executes).2
    · rw [setProc_procs, update_self]
      exact running
  | _ => exact absurd res id

/-- An action of the process on CPU `c`. -/
theorem procStep {effect : Effect n} (executes : s.executing c = some (p, t))
    (keepsThreads : s.keepsThreads (.proc c act)) (step : ProcStep s p act effect) :
    (s.finish c p t effect).ThreadInv := by
  obtain ⟨here, _⟩ := exec_running executes
  have refers : (s.cpus c).Refers p := .inr here
  have inside := inv.inside refers
  have distinct : ∀ {i : ProcId}, (s.procs i).state.outside → i ≠ p := by
    rintro i outside rfl
    rw [inside] at outside
    cases outside
  have keeps := fun {x : Proc} => inv.keeps (x := x) inside
  cases step with
  | moves _ _ after =>
    exact keeps ⟨rfl, rfl, rfl, id, .inl rfl⟩ (.inr (Cont.forking_of_plain after))
  | own x ownChange _ move =>
    have forking := Cont.forking_of_plain ownChange.after
    cases move with
    | usertrap =>
      exact keeps ⟨rfl, rfl, rfl, fun _ => by simp, .inl rfl⟩ (.inr rfl)
    | usertrapret =>
      exact keeps ⟨rfl, rfl, rfl, fun _ => by simp, .inl rfl⟩ (.inr rfl)
    | setkilled => exact keeps ⟨rfl, rfl, rfl, id, .inl rfl⟩ (.inl rfl)
    | threadReturns _ _ _ same res =>
      have called := inv.threadCall executes keepsThreads res same forking
      exact called
    | threadYields _ _ _ same res =>
      exact inv.threadCall executes keepsThreads res same rfl
  | expired =>
    exact keeps ⟨rfl, rfl, rfl, fun _ => by simp, .inr ⟨inside, rfl⟩⟩ (.inr rfl)
  | taken _ index _ searching free =>
    have ne : index ≠ p := distinct (by rw [free]; rfl)
    have unthreaded := (inv.table index).fresh (.inl free)
    refine inv.pair (.inr ⟨?_, ne⟩) ?_
    · exact ⟨by rw [free]; rfl, rfl, (inv.table index).slots,
        (inv.table index).unthreaded unthreaded, fun _ => ⟨by simp [newProc], by simp [newProc]⟩⟩
    · rw [pair_procs' ne]
      exact inv.forks.taken ne free (by rw [searching]; rfl)
  | refused _ index _ free =>
    have outside : (s.procs index).state.outside := by rw [free]; rfl
    refine inv.pair (.inr ⟨freeproc_resets outside, distinct outside⟩) ?_
    refine inv.pair_forks (fun used => ?_) rfl (.inr rfl)
    cases free.symm.trans used
  | forkParent _ _ forking =>
    refine inv.pair (.inl ⟨rfl, rfl, rfl, id, .inl rfl⟩) ?_
    exact inv.pair_forks id rfl (.inl (by rw [forking]; rfl))
  | forkRunnable _ np _ forking readied =>
    have used : (s.procs np).state = .used := inv.forks.used p np (by rw [forking]; rfl)
    have ne : np ≠ p := distinct (by rw [used]; rfl)
    refine inv.pair (.inr ⟨readied_resets (inv.table np) used readied, ne⟩) ?_
    rw [pair_procs' ne]
    exact inv.forks.readied ne (by rw [forking]; rfl) readied.facts.2.1
  | reaps pp found =>
    have zombie := (firstZombie_spec found).2
    have outside : (s.procs pp).state.outside := by rw [zombie]; rfl
    refine inv.pair (.inr ⟨freeproc_resets outside, distinct outside⟩) ?_
    refine inv.pair_forks (fun used => ?_) rfl (.inr rfl)
    cases zombie.symm.trans used
  | kills =>
    refine inv.pair (.inl (killProc_keeps _)) ?_
    refine inv.pair_forks (fun used => ?_) rfl (.inr rfl)
    simp [killProc, used]
  | storesQuota =>
    refine inv.pair (.inl ⟨rfl, rfl, rfl, fun _ => by simp, .inl rfl⟩) ?_
    exact inv.pair_forks id rfl (.inr rfl)
  | yields _ _ same =>
    exact inv.sched executes rfl rfl rfl (.inl same) (.inl rfl)
  | sleeps _ _ _ _ _ after =>
    exact inv.sched executes rfl rfl rfl (.inr (Cont.forking_of_plain after)) (.inl rfl)
  | exits _ _ notInit =>
    have orphaned : { s with procs := orphan s.initproc p s.procs }.ThreadInv :=
      inv.changeTable (orphan_forks inv.forks _ _) fun p' => .inl (orphan_keeps _ _ _ p')
    have run : s.reachedOnlyBy c p := by
      simpa only [Kernel.keepsThreads, executes] using keepsThreads
    rw [Kernel.exit, if_neg notInit]
    exact orphaned.sched executes rfl rfl rfl (.inl rfl) (.inr ⟨rfl, run⟩)
  | panics =>
    exact inv.setPc (by simp) (.inr ⟨_, rfl⟩)

/-- Waking processes keeps the invariant. -/
theorem wakeup (self : Option ProcId) (chan : Option Chan) (ticks : UInt32) (stale : Nat) :
    { s with ticks := ticks, stale := stale, procs := CustomXv6.wakeup self chan s.procs }.ThreadInv :=
  inv.changeTable (wakeup_forks inv.forks self chan)
    fun p => .inl (wakeup_keeps self chan s.procs p)

/-- Every step of the kernel that meets the condition keeps the invariant. -/
theorem step {act : Action n} (keepsThreads : s.keepsThreads act)
    (ran : s.step act = some s') : s'.ThreadInv := by
  cases step_cases ran with
  | scheduler step => exact inv.schedStep step
  | tick => exact inv.changeTable inv.forks fun _ => .inl (.refl _)
  | wakes => exact inv.wakeup _ _ _ _
  | proc executes step => exact inv.procStep executes keepsThreads step

/-- A threaded process that no CPU executes has a thread that can run. -/
theorem hasRunnable (threaded : (s.procs p).currentThread ≠ none)
    (alive : (s.procs p).state ≠ .zombie) (notExecuted : ∀ c, (s.cpus c).proc ≠ some p) :
    (s.procs p).HasRunnable := by
  rcases inv.progress p threaded alive with runnable | ⟨c, here, _⟩
  · exact runnable
  · exact absurd here (notExecuted c)

/-- Dispatching such a process switches to one of its threads. -/
theorem dispatches (threaded : (s.procs p).currentThread ≠ none)
    (notExecuted : ∀ c, (s.cpus c).proc ≠ some p) (choosing : (s.cpus c).pc = .chosen p src)
    (ran : s.step (.scheduler c) = some s') : ∃ t, s'.executing c = some (p, some t) := by
  have refers : (s.cpus c).Refers p := .inl ⟨src, choosing⟩
  have inside := inv.inside refers
  have alive : (s.procs p).state ≠ .zombie := ProcState.ne_of_inside inside rfl
  obtain ⟨ready, runnable⟩ := inv.hasRunnable threaded alive notExecuted
  -- the step is the dispatch of `p`
  have isChosen : ∀ {p' source'}, (s.cpus c).pc = .chosen p' source' → p' = p := by
    intro _ _ choosing'
    cases choosing.symm.trans choosing'
    rfl
  cases schedulerStep_cases ran with
  | moves _ pre =>
    rw [choosing] at pre
    cases pre
  | pushes _ _ _ scanning => cases choosing.symm.trans scanning
  | drops _ _ _ popping => cases choosing.symm.trans popping
  | chooses _ _ _ popping => cases choosing.symm.trans popping
  | unparks _ _ popping => cases choosing.symm.trans popping
  | enters _ _ _ _ _ choosing' _ _ _ entered =>
    cases isChosen choosing'
    obtain ⟨t', rfl⟩ := Option.ne_none_iff_exists'.mp (entered threaded).1
    exact ⟨t', by simp [Kernel.executing]⟩
  | rests _ _ _ choosing' _ _ stuck =>
    cases isChosen choosing'
    exact absurd runnable (stuck ready)
  | faults _ _ choosing' _ entered =>
    cases isChosen choosing'
    have table : ({ s.procs p with state := .running } : Proc).TableOk :=
      ⟨(inv.tableOk refers).slots, (inv.tableOk refers).frame⟩
    obtain ⟨_, _, eq, _⟩ := table.enterThreads
    cases entered.symm.trans eq
  | stops _ _ choosing' missing =>
    cases isChosen choosing'
    exact absurd missing ((inv.table p).inUse (inv.in_use refers)).2

end ThreadInv

end Kernel

theorem boot_threadInv : (boot n).ThreadInv := by
  have single : ∀ p, ((boot n).procs p).currentThread = none := by
    intro p
    simp only [boot]
    split <;> rfl
  refine ⟨Queue.valid_initializeQueue, fun _ _ => rfl, boot_inv.forks, fun p => ?_, fun p _ => ?_,
    fun p threaded => absurd (single p) threaded⟩
  · simp only [boot]
    split
    · exact ⟨fun t => threadSlotOk_freethread t {}, fun _ _ => rfl, fun _ => rfl,
        fun _ => by simp [initcodeProc]⟩
    · exact ⟨fun t => threadSlotOk_freethread t {}, fun _ _ => rfl, fun _ => rfl,
        fun inUse => absurd rfl inUse⟩
  · refine ⟨?_, by simp [boot], fun c refers => ?_⟩
    · simp [boot, pqInit, PriorityQueue.procs, ArrayHeap.contents]
    · rcases refers with ⟨src, never⟩ | never <;> cases never

/-! ### Progress -/

/-- In every run whose thread calls leave a thread that can run, a process with
threads that is RUNNABLE and not executed has a RUNNABLE thread, and
dispatching it switches to one of its threads. -/
theorem threads_progress (n : Nat) (s : Kernel n)
    (run : Run Kernel.step (fun s act => s.keepsThreads act) (boot n) s) (p : ProcId)
    (threaded : (s.procs p).currentThread ≠ none) (notExecuted : ∀ c, (s.cpus c).proc ≠ some p) :
    ((s.procs p).state = .runnable → (s.procs p).HasRunnable) ∧
      ∀ c src s', (s.cpus c).pc = .chosen p src → s.step (.scheduler c) = some s' →
        ∃ t, s'.executing c = some (p, some t) := by
  have inv : s.ThreadInv := run.invariant boot_threadInv
    fun inv keepsThreads ran => inv.step keepsThreads ran
  refine ⟨fun runnable => ?_, fun c src s' choosing ran => ?_⟩
  · exact inv.hasRunnable threaded (by simp [runnable]) notExecuted
  · exact inv.dispatches threaded notExecuted choosing ran

/-- The first process creates a thread and joins it; the thread runs and is
interrupted. -/
theorem threads_progress_joined :
    ∃ s : Kernel 1, Run Kernel.step (fun s act => s.keepsThreads act) (boot 1) s ∧
      ((s.procs 0).currentThread ≠ none ∧ (∀ c, (s.cpus c).proc ≠ some 0) ∧
        (s.procs 0).state = .runnable) ∧ (s.procs 0).HasRunnable := by
  obtain ⟨s, run, threaded, notExecuted, runnable⟩ := exists_run_of_runChecked Kernel.step
    (fun s act => s.keepsThreads act) (boot 1)
    (threadedRun 0 ++ pass 0 ++ [.proc 0 (.joinThread 2), .proc 0 .yield, .proc 0 .preempt])
    (P := fun s => (s.procs 0).currentThread ≠ none ∧ (∀ c, (s.cpus c).proc ≠ some 0) ∧
      (s.procs 0).state = .runnable) (by decide +kernel)
  exact ⟨s, run, ⟨threaded, notExecuted, runnable⟩,
    (threads_progress 1 s run 0 threaded notExecuted).1 runnable⟩

/-- A process can be RUNNABLE with none of its threads RUNNABLE: after a first
`create_thread` whose second page could not be allocated, and after each of two
threads has joined itself. -/
theorem threads_stuck :
    (∃ s : Kernel 1, Run Kernel.step (fun _ _ => True) (boot 1) s ∧
      (s.procs 0).currentThread ≠ none ∧ (∀ c, (s.cpus c).proc ≠ some 0) ∧
        (s.procs 0).state = .runnable ∧ ∀ t, ((s.procs 0).threads t).state ≠ .runnable) ∧
    ∃ s : Kernel 1, Run Kernel.step (fun _ _ => True) (boot 1) s ∧
      (s.procs 0).currentThread ≠ none ∧ (∀ c, (s.cpus c).proc ≠ some 0) ∧
        (s.procs 0).state = .runnable ∧ ∀ t, ((s.procs 0).threads t).state ≠ .runnable := by
  constructor
  · exact exists_run_of_runFrom _ _ (traps 0 ++
        [.proc 0 (.createThread 64 7 4096 true false), .proc 0 .preempt]) (by decide +kernel)
  · exact exists_run_of_runFrom _ _ (traps 0 ++
        [.proc 0 (.createThread 64 7 4096 true true), .proc 0 (.joinThread 1), .proc 0 .yield] ++
        pass 0 ++ [.proc 0 (.joinThread 2), .proc 0 .yield]) (by decide +kernel)

end CustomXv6

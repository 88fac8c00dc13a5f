/-
Module: CustomXv6.Kernel.SmpReady
Purpose: Which locks a CPU holds, and in which place a process is.
Trusted boundary: none
Main exports: Smp.Machine.Locked, Smp.Machine.Ready
-/
import CustomXv6.Kernel.Smp
import CustomXv6.Lib.Counting

namespace CustomXv6

open Counting
open Function

namespace Smp

variable {n m : Nat}

/-! ### The locks of a place in the code -/

/-- The locks that `scheduler` holds at a place, the one it took last first. -/
def SchedPoint.locks : SchedPoint → List (Lock m)
  | .scanPq _ => [.pq]
  | .scanProc p => [.proc p, .pq]
  | .scanned _ => [.pq]
  | .popping => [.pq]
  | .popped _ => [.pq]
  | .choosing p => [.proc p, .pq]
  | .chosen _ => [.pq]
  | .testing p => [.proc p, .pq]
  | .tested _ _ => [.pq]
  | .poppingQ => [.q]
  | .dispatching p => [.proc p]
  | .returned p => [.proc p]
  | .parking p => [.proc p]
  | .parked p => [.q, .proc p]
  | .leaving p => [.proc p]
  | _ => []

/-- `c->proc` at a place of the scheduler. -/
def SchedPoint.runs : SchedPoint → Option ProcId
  | .swtched p => some p
  | .returned p => some p
  | .parking p => some p
  | .parked p => some p
  | .leaving p => some p
  | _ => none

/-- The process whose lock the code on top of the stack holds, on a CPU with
`c->proc = self`. -/
def Frame.lock (self : Option ProcId) : Frame m → Option ProcId
  | .forkret => self
  | .sleepLocked _ _ => self
  | .sleepStore _ _ => self
  | .sleepResume _ _ => self
  | .yieldLocked => self
  | .yieldResume _ => self
  | .wakeupLocked _ p => some p
  | .killLocked _ p => some p
  | _ => none

/-- The code holds no `p->lock`. -/
def Frame.unlocked : Frame m → Bool
  | .kernel => true
  | .handler => true
  | .sleep _ _ => true
  | .sleepReacquire _ => true
  | .yield => true
  | .wakeup _ _ => true
  | .kill _ _ => true
  | _ => false

theorem Frame.lock_of_unlocked {f : Frame m} (free : f.unlocked) (self : Option ProcId) :
    f.lock self = none := by
  cases f with
  | forkret => cases free
  | sleepLocked => cases free
  | sleepStore => cases free
  | sleepResume => cases free
  | yieldLocked => cases free
  | yieldResume => cases free
  | wakeupLocked => cases free
  | killLocked => cases free
  | _ => rfl

def Frame.resumes : Frame m → Bool
  | .forkret => true
  | .sleepResume _ _ => true
  | .yieldResume _ => true
  | _ => false

theorem Frame.lock_of_resumes {f : Frame m} (resumes : f.resumes) (self : Option ProcId) :
    f.lock self = self := by
  cases f with
  | forkret => rfl
  | sleepResume => rfl
  | yieldResume => rfl
  | _ => cases resumes

/-- The CPU runs a process. -/
def SchedPoint.inSwtch : SchedPoint → Bool
  | .swtched _ => true
  | _ => false

/-- The frame at the bottom of the stack: the code of a process, or the handler that
interrupted the scheduler. -/
def SchedPoint.base (point : SchedPoint) : Frame m → Bool
  | .kernel => point.inSwtch
  | .forkret => point.inSwtch
  | .handler => !point.inSwtch
  | _ => false

/-- A stack with the right frame at the bottom, on which a frame was put only while the
one below held no lock. -/
inductive Based (base : Frame m → Bool) : List (Frame m) → Prop where
  | root {f : Frame m} (bottom : base f) : Based base [f]
  | call {f g : Frame m} {rest : List (Frame m)} (below : Based base (g :: rest))
      (free : g.unlocked) : Based base (f :: g :: rest)

namespace Based

variable {base : Frame m → Bool} {f g : Frame m} {rest : List (Frame m)}

theorem push (stack : Based base (g :: rest)) (free : g.unlocked) (f : Frame m) :
    Based base (f :: g :: rest) := .call stack free

/-- A frame that is not the bottom one returns. -/
theorem pop (stack : Based base (f :: rest)) (called : base f = false) :
    ∃ g rest', rest = g :: rest' ∧ Based base rest ∧ g.unlocked := by
  cases stack with
  | root bottom =>
    rw [called] at bottom
    cases bottom
  | call below free => exact ⟨_, _, rfl, below, free⟩

/-- The frame on top goes on elsewhere. -/
theorem replace (stack : Based base (f :: rest)) (same : base f → base g) :
    Based base (g :: rest) := by
  cases stack with
  | root bottom => exact .root (same bottom)
  | call below free => exact .call below free

end Based

/-- The locks of processes and queues that a CPU holds where its code is. -/
def Core.holds (core : Core m) : List (Lock m) :=
  match core.frames with
  | [] => core.point.locks
  | f :: _ => (f.lock core.proc).toList.map .proc

theorem Core.holds_nil {core : Core m} (empty : core.frames = []) :
    core.holds = core.point.locks := by
  rw [Core.holds, empty]

theorem Core.holds_cons {core : Core m} {f : Frame m} {rest : List (Frame m)}
    (top : core.frames = f :: rest) : core.holds = (f.lock core.proc).toList.map .proc := by
  rw [Core.holds, top]

/-- What holds of every CPU by itself: `c->proc` fits the place of the scheduler, and the
stack is empty, or a well formed one on a scheduler that holds no lock. -/
structure Core.WellFormed (core : Core m) : Prop where
  proc : core.proc = core.point.runs
  stack : core.frames = [] ∨
    Based core.point.base core.frames ∧ core.point.locks = ([] : List (Lock m))
  busy : ∀ p, core.point = .swtched p → core.frames ≠ []
  owns : ∀ f rest, core.frames = f :: rest → f.lock core.proc = none → f.unlocked

variable {point : SchedPoint}

namespace Core.WellFormed

variable {core : Core m}

variable (wf : core.WellFormed)
include wf

theorem pushOff : core.pushOff.WellFormed := ⟨wf.proc, wf.stack, wf.busy, wf.owns⟩

theorem popOff : core.popOff.WellFormed := ⟨wf.proc, wf.stack, wf.busy, wf.owns⟩

/-- Another stack, on a scheduler that holds no lock. -/
theorem setFrames {f : Frame m} {rest : List (Frame m)}
    (stack : Based core.point.base (f :: rest)) (locks : core.point.locks = ([] : List (Lock m)))
    (owns : f.lock core.proc = none → f.unlocked) : (core.setFrames (f :: rest)).WellFormed := by
  refine ⟨wf.proc, .inr ⟨stack, locks⟩, ?_, ?_⟩
  · intro p _ empty
    cases empty
  · intro g _ top
    cases top
    exact owns

/-- Another place of a scheduler that executes no stack. -/
theorem goto (empty : core.frames = []) (runs : point.runs = core.point.runs)
    (out : ∀ p, point ≠ .swtched p) : (core.goto point).WellFormed := by
  refine ⟨wf.proc.trans runs.symm, .inl empty, fun p here => (out p here).elim, ?_⟩
  intro f rest top
  change core.frames = f :: rest at top
  rw [empty] at top
  cases top

end Core.WellFormed

/-- A lock of a process or a queue. -/
def Lock.inKernel : Lock m → Bool
  | .lk _ => false
  | _ => true

/-- A stack that `swtch` can go on with. -/
def Suspended (frames : List (Frame m)) : Prop :=
  ∃ f rest, frames = f :: rest ∧ f.resumes ∧ ∀ p, Based (SchedPoint.swtched p).base (f :: rest)

theorem SchedPoint.inKernel_of_mem_locks {l : Lock m} (mem : l ∈ (point.locks : List (Lock m))) :
    l.inKernel := by
  cases l with
  | lk =>
    cases point with
    | _ => simp [SchedPoint.locks] at mem
  | _ => rfl

structure Machine.Locked (s : Machine n m) : Prop where
  cores : ∀ c, (s.cpus c).WellFormed
  contexts : ∀ p, Suspended (s.procs p).context
  exact : ∀ c lock, lock.inKernel → (s.locks lock = some c ↔ lock ∈ (s.cpus c).holds)
  counts : ∀ c, (s.cpus c).noff = occurrences s.locks (some c)
  masked : ∀ c, 0 < (s.cpus c).noff → (s.cpus c).intr = false
  alone : ∀ c, (s.cpus c).frames = [] → ∀ k, s.locks (.lk k) ≠ some c

namespace Machine.Locked

variable {s t : Machine n m} {c : Fin n} {core : Core m} {lock : Lock m}

variable (inv : s.Locked)
include inv

/-- CPU `c` changes, and the locks it holds with it. -/
theorem change (cpus : t.cpus = update s.cpus c core)
    (contexts : ∀ p, Suspended (t.procs p).context) (wf : core.WellFormed)
    (others : ∀ lock d, d ≠ c → (t.locks lock = some d ↔ s.locks lock = some d))
    (exact : ∀ lock, lock.inKernel → (t.locks lock = some c ↔ lock ∈ core.holds))
    (counts : core.noff = occurrences t.locks (some c)) (masked : 0 < core.noff → core.intr = false)
    (alone : core.frames = [] → ∀ k, t.locks (.lk k) ≠ some c) : t.Locked := by
  have here : t.cpus c = core := by rw [cpus, update_self]
  have there : ∀ {d}, d ≠ c → t.cpus d = s.cpus d := by
    intro d ne
    rw [cpus, update_of_ne ne]
  constructor
  · intro d
    by_cases same : d = c
    · rw [same, here]
      exact wf
    · rw [there same]
      exact inv.cores d
  · exact contexts
  · intro d lock kernel
    by_cases same : d = c
    · rw [same, here]
      exact exact lock kernel
    · rw [there same, others lock d same]
      exact inv.exact d lock kernel
  · intro d
    by_cases same : d = c
    · rw [same, here]
      exact counts
    · rw [there same, inv.counts d]
      exact occurrences_congr fun lock => (others lock d same).symm
  · intro d
    by_cases same : d = c
    · rw [same, here]
      exact masked
    · rw [there same]
      exact inv.masked d
  intro d
  by_cases same : d = c
  · rw [same, here]
    exact alone
  rw [there same]
  intro empty k
  rw [Ne, others (.lk k) d same]
  exact inv.alone d empty k

/-- A free lock is taken. -/
theorem take (free : s.locks lock = none) (wf : core.WellFormed)
    (noff : core.noff = (s.cpus c).noff + 1) (masked : core.intr = false)
    (holds : ∀ l, l.inKernel → (l ∈ core.holds ↔ l = lock ∨ l ∈ (s.cpus c).holds))
    (alone : core.frames = [] → (s.cpus c).frames = [] ∧ lock.inKernel) :
    (s.setLock lock (some c) c core).Locked := by
  have counted := occurrences_update s.locks lock (some c) (some c)
  rw [free, if_neg (by simp), if_pos rfl] at counted
  refine inv.change rfl inv.contexts wf ?_ ?_ ?_ ?_ ?_
  · intro l d ne
    by_cases same : l = lock
    · simp [same, free, ne.symm]
    · simp [same]
  · intro l kernel
    rw [holds l kernel]
    by_cases same : l = lock
    · simp [same]
    · simpa [same] using inv.exact c l kernel
  · rw [noff, inv.counts c]
    exact counted.symm
  · exact fun _ => masked
  intro empty k
  obtain ⟨pre, kernel⟩ := alone empty
  have other : Lock.lk k ≠ lock := by
    rintro rfl
    cases kernel
  rw [setLock_locks, update_of_ne other]
  exact inv.alone c pre k

/-- A lock is given up. -/
theorem give (held : s.locks lock = some c) (wf : core.WellFormed)
    (noff : core.noff = (s.cpus c).noff - 1) (masked : 0 < core.noff → core.intr = false)
    (holds : ∀ l, l.inKernel → (l ∈ core.holds ↔ l ≠ lock ∧ l ∈ (s.cpus c).holds))
    (alone : core.frames = [] → (s.cpus c).frames = []) : (s.setLock lock none c core).Locked := by
  have counted := occurrences_update s.locks lock none (some c)
  rw [if_pos held, if_neg (by simp)] at counted
  refine inv.change rfl inv.contexts wf ?_ ?_ ?_ ?_ ?_
  · intro l d ne
    by_cases same : l = lock
    · simp [same, held, ne.symm]
    · simp [same]
  · intro l kernel
    rw [holds l kernel]
    by_cases same : l = lock
    · simp [same]
    · simpa [same] using inv.exact c l kernel
  · rw [noff, inv.counts c]
    change _ = occurrences (update s.locks lock none) (some c)
    omega
  · exact masked
  intro empty k
  by_cases same : Lock.lk k = lock
  · simp [same]
  · rw [setLock_locks, update_of_ne same]
    exact inv.alone c (alone empty) k

/-- The CPU goes on with the locks it holds. -/
theorem move (c : Fin n) (core : Core m) (wf : core.WellFormed) (noff : core.noff = (s.cpus c).noff)
    (masked : core.intr = true → (s.cpus c).intr = true ∨ core.noff = 0)
    (holds : ∀ l, l.inKernel → (l ∈ core.holds ↔ l ∈ (s.cpus c).holds))
    (alone : core.frames = [] → ∀ k, s.locks (.lk k) ≠ some c) : (s.setCore c core).Locked := by
  refine inv.change rfl inv.contexts wf ?_ ?_ ?_ ?_ ?_
  · exact fun _ _ _ => Iff.rfl
  · intro l kernel
    rw [holds l kernel]
    exact inv.exact c l kernel
  · rw [noff]
    exact inv.counts c
  · intro _
    cases enabled : core.intr with
    | false => rfl
    | true =>
      obtain pre | _ := masked enabled
      · have off := inv.masked c (by omega)
        rw [pre] at off
        cases off
      · omega
  · exact alone

/-- A store into a process that leaves its saved stack in order. -/
theorem setProc (p : ProcId) (x : Task m) (suspended : Suspended x.context) :
    (s.setProc p x).Locked := by
  refine ⟨inv.cores, ?_, inv.exact, inv.counts, inv.masked, inv.alone⟩
  apply Function.forall_update_iff s.procs (fun _ x => Suspended x.context) |>.mpr
  exact ⟨suspended, fun p' _ => inv.contexts p'⟩

theorem panic : (s.panic c).Locked := by
  have wf := inv.cores c
  exact inv.move c _ ⟨wf.proc, wf.stack, wf.busy, wf.owns⟩ rfl .inl (fun _ _ => Iff.rfl)
    (inv.alone c)

/-- A CPU whose interrupts are on holds no lock. -/
theorem free_of_intr (enabled : (s.cpus c).intr = true) (lock : Lock m) :
    s.locks lock ≠ some c := by
  have zero : (s.cpus c).noff = 0 := by
    by_contra pos
    have off := inv.masked c (by omega)
    rw [enabled] at off
    cases off
  rw [inv.counts c] at zero
  exact occurrences_eq_zero.mp zero lock

end Machine.Locked

/-! ### Taking and giving up locks -/

namespace Machine

variable {s t : Machine n m} {c : Fin n} {lock : Lock m} {next : Core m → Core m}

theorem acquire_cases (acquired : s.acquire c lock next = some t) :
    s.locks lock = none ∧ t = s.setLock lock (some c) c (next (s.cpus c).pushOff) ∨
      t = s.panic c := by
  rw [acquire] at acquired
  split at acquired
  · rename_i free
    exact .inl ⟨free, (Option.some.inj acquired).symm⟩
  split at acquired
  · exact .inr (Option.some.inj acquired).symm
  · cases acquired

theorem release_cases (s : Machine n m) (c : Fin n) (lock : Lock m) (next : Core m → Core m) :
    (s.locks lock = some c ∧ (s.cpus c).intr = false ∧
      s.release c lock next = s.setLock lock none c (next (s.cpus c).popOff)) ∨
      s.release c lock next = s.panic c := by
  rw [release]
  split
  · rename_i held
    exact .inl ⟨held.1, held.2.1, rfl⟩
  · exact .inr rfl

@[simp] theorem release_procs (s : Machine n m) (c : Fin n) (lock : Lock m)
    (next : Core m → Core m) : (s.release c lock next).procs = s.procs := by
  obtain ⟨-, -, equal⟩ | equal := release_cases s c lock next <;> rw [equal] <;> rfl

namespace Locked

variable {f : Frame m} {rest : List (Frame m)} {p : ProcId}

theorem popOff_masked (off : (s.cpus c).intr = false) (pos : 0 < (s.cpus c).popOff.noff) :
    (s.cpus c).popOff.intr = false := by
  have more : (s.cpus c).noff - 1 ≠ 0 := Nat.ne_of_gt pos
  simp only [Core.popOff, more, false_and, if_false]
  exact off

/-- The stack that a CPU executes is well formed, and its scheduler holds no lock. -/
theorem based (inv : s.Locked) (top : (s.cpus c).frames = f :: rest) :
    Based (s.cpus c).point.base (f :: rest) ∧ (s.cpus c).point.locks = ([] : List (Lock m)) := by
  obtain empty | ⟨stack, locks⟩ := (inv.cores c).stack
  · rw [top] at empty
    cases empty
  · rw [top] at stack
    exact ⟨stack, locks⟩

/-- A CPU with a process that executes a stack is in `swtch`. -/
theorem swtched (inv : s.Locked) (top : (s.cpus c).frames = f :: rest)
    (self : (s.cpus c).proc = some p) : (s.cpus c).point = .swtched p := by
  obtain ⟨-, none⟩ := inv.based top
  have runs := (inv.cores c).proc
  rw [self] at runs
  cases here : (s.cpus c).point with
  | swtched =>
    rw [here] at runs
    rw [Option.some.inj runs]
  | returned =>
    rw [here] at none
    cases none
  | parking =>
    rw [here] at none
    cases none
  | parked =>
    rw [here] at none
    cases none
  | leaving =>
    rw [here] at none
    cases none
  | _ =>
    rw [here] at runs
    cases runs

/-- The next round of a loop over the process table, or the return from it. -/
theorem based_loop {base : Frame m → Bool} (again : ProcId → Frame m) (p : ProcId)
    (stack : Based base (f :: rest)) (called : base f = false) (free : ∀ p, (again p).unlocked) :
    ∃ g frames, loop again p rest = g :: frames ∧ Based base (g :: frames) ∧ g.unlocked := by
  obtain ⟨g, frames, rfl, below, freeBelow⟩ := stack.pop called
  rw [loop]
  split
  · rename_i p' _
    exact ⟨again p', g :: frames, rfl, below.push freeBelow _, free p'⟩
  · exact ⟨g, frames, rfl, below, freeBelow⟩

variable (inv : s.Locked)
include inv

/-- No two CPUs hold a lock. -/
theorem exclusive (kernel : lock.inKernel) {d : Fin n}
    (mine : lock ∈ (s.cpus c).holds) (other : lock ∈ (s.cpus d).holds) : c = d := by
  have first := (inv.exact c lock kernel).mpr mine
  have second := (inv.exact d lock kernel).mpr other
  rw [first] at second
  exact Option.some.inj second

/-- The scheduler holds the locks of its place. -/
theorem mem_holds (mem : lock ∈ ((s.cpus c).point.locks : List (Lock m))) :
    lock ∈ (s.cpus c).holds := by
  obtain empty | ⟨-, none⟩ := (inv.cores c).stack
  · rw [Core.holds_nil empty]
    exact mem
  · rw [none] at mem
    cases mem

theorem held (mem : lock ∈ ((s.cpus c).point.locks : List (Lock m))) : s.locks lock = some c :=
  (inv.exact c lock (SchedPoint.inKernel_of_mem_locks mem)).mpr (inv.mem_holds mem)

theorem positive_of_held (held : s.locks lock = some c) : 0 < (s.cpus c).noff := by
  rw [inv.counts c, occurrences_pos]
  exact ⟨lock, held⟩

theorem masked_of_held (held : s.locks lock = some c) : (s.cpus c).intr = false :=
  inv.masked c (inv.positive_of_held held)

/-- A lock that the CPU holds is given up without a panic. -/
theorem release_eq (held : s.locks lock = some c)
    (locks : t.locks = s.locks) (cpus : t.cpus c = s.cpus c) :
    t.release c lock next = t.setLock lock none c (next (s.cpus c).popOff) := by
  rw [release, if_pos, cpus]
  rw [cpus, locks]
  exact ⟨held, inv.masked_of_held held, inv.positive_of_held held⟩

end Locked

/-- The discipline holds at the start. -/
theorem Starts.locked (starts : s.Starts) : s.Locked := by
  have core := starts.cpus
  constructor
  · intro c
    rw [core c]
    exact ⟨rfl, .inl rfl, nofun, nofun⟩
  · intro p
    refine ⟨.forkret, [], starts.context p, rfl, fun p' => .root rfl⟩
  · intro c lock _
    rw [starts.locks, core c]
    constructor
    · intro absurd
      cases absurd
    · intro absurd
      cases absurd
  · intro c
    rw [core c, occurrences_eq_zero.mpr]
    intro _
    rw [starts.locks]
    exact nofun
  · intro c pos
    rw [core c] at pos
    cases pos
  · intro c _ k
    rw [starts.locks]
    exact nofun

end Machine

/-- The process that a CPU has in hand: popped from a queue and not yet dispatched, or
running, or back from `swtch` and not yet queued again. -/
def SchedPoint.hand : SchedPoint → Option ProcId
  | .popped p => some p
  | .choosing p => some p
  | .chosen p => some p
  | .testing p => some p
  | .tested p true => some p
  | .dispatch p => some p
  | .dispatching p => some p
  | .swtched p => some p
  | .returned p => some p
  | .parking p => some p
  | .parked p => some p
  | _ => none

/-- The states of a process in the hands of a CPU.  A process that runs is `RUNNING`, or
`DROPPED` in `usertrap` before it yields. -/
def SchedPoint.states : SchedPoint → List ProcState
  | .popped _ => [.runnable]
  | .choosing _ => [.runnable]
  | .chosen _ => [.chosenToRun]
  | .testing _ => [.chosenToRun]
  | .tested _ true => [.chosenToRun]
  | .dispatch _ => [.chosenToRun, .passedQuota]
  | .dispatching _ => [.chosenToRun, .passedQuota]
  | .swtched _ => [.running, .dropped]
  | .returned _ => [.runnable, .sleeping]
  | .parking _ => [.passedQuota]
  | .parked _ => [.passedQuota]
  | _ => []

theorem SchedPoint.runnable_of_sleeping (listed : .sleeping ∈ point.states) :
    .runnable ∈ point.states := by
  cases point with
  | returned => exact .head _
  | tested _ flag =>
    cases flag with
    | false => cases listed
    | true => simp [SchedPoint.states] at listed
  | _ => simp [SchedPoint.states] at listed

/-- The state of a process fits the CPU that has it in hand.  If `sched` panics, it is the
state that the process stored before, and its lock is never given up. -/
def Core.Fits (core : Core m) (p : ProcId) (state : ProcState) : Prop :=
  state ∈ core.point.states ∨ core.panicked = true ∧ core.point = .swtched p ∧ .proc p ∈ core.holds

/-- A process is in at most one place, and its state belongs to the place.  Between
`enqueue` and the `release` that follows it, another CPU can already have the process in
hand; it waits for the lock. -/
structure Machine.Ready (s : Machine n m) : Prop where
  heapNodup : s.pq.procs.Nodup
  queueNodup : s.q.toList.Nodup
  queueValid : s.q.Valid
  heap : ∀ p ∈ s.pq.procs, (s.procs p).state = .runnable
  queue : ∀ p ∈ s.q.toList, (s.procs p).state = .passedQuota
  heapHand : ∀ p ∈ s.pq.procs, ∀ c, (s.cpus c).point.hand ≠ some p
  queueHand : ∀ p ∈ s.q.toList, ∀ c, (s.cpus c).point.hand ≠ some p
  handUnique : ∀ c d p, (s.cpus c).point.hand = some p → (s.cpus d).point.hand = some p → c = d
  fits : ∀ c p, (s.cpus c).point.hand = some p → (s.cpus c).Fits p (s.procs p).state
  leaving : ∀ c p, (s.cpus c).point = .leaving p → (s.procs p).state ≠ .running

namespace Machine

variable {s t : Machine n m} {c : Fin n} {core : Core m} {lock : Lock m} {p : ProcId}
  {x : Task m} {next : Core m → Core m}

/-! ### Moves that keep the places -/

namespace Ready

section

variable (ready : s.Ready)
include ready

/-- A change of one CPU and one process: the process is, or was, in the hands of the
CPU. -/
theorem act (mine : (s.cpus c).point.hand = some p)
    (after : core.point.hand = some p ∨ core.point.hand = none)
    (fits : core.point.hand = some p → core.Fits p x.state)
    (leaving : ∀ p', core.point = .leaving p' → p' = p ∧ x.state ≠ .running)
    (calm : x.state = .running → ∀ d, (s.cpus d).point ≠ .leaving p) :
    ((s.setProc p x).setCore c core).Ready := by
  have hands : ∀ d p', (update s.cpus c core d).point.hand = some p' →
      (s.cpus d).point.hand = some p' := by
    intro d p' hand
    by_cases same : d = c
    · subst same
      rw [update_self] at hand
      obtain kept | gone := after
      · rw [mine, ← kept, hand]
      · rw [gone] at hand
        cases hand
    · rwa [update_of_ne same] at hand
  have others : ∀ {p'}, p' ≠ p → update s.procs p x p' = s.procs p' := fun ne =>
    update_of_ne ne _ _
  refine ⟨ready.heapNodup, ready.queueNodup, ready.queueValid, ?_, ?_, ?_, ?_, ?_, ?_, ?_⟩
  · intro p' mem
    have ne : p' ≠ p := by
      rintro rfl
      exact ready.heapHand p' mem c mine
    change (update s.procs p x p').state = _
    rw [others ne]
    exact ready.heap p' mem
  · intro p' mem
    have ne : p' ≠ p := by
      rintro rfl
      exact ready.queueHand p' mem c mine
    change (update s.procs p x p').state = _
    rw [others ne]
    exact ready.queue p' mem
  · exact fun p' mem d hand => ready.heapHand p' mem d (hands d p' hand)
  · exact fun p' mem d hand => ready.queueHand p' mem d (hands d p' hand)
  · intro d e p' atD atE
    exact ready.handUnique d e p' (hands d p' atD) (hands e p' atE)
  · intro d p' hand
    have pre := hands d p' hand
    change (update s.cpus c core d).Fits p' (update s.procs p x p').state
    by_cases same : d = c
    · subst same
      rw [mine] at pre
      cases pre
      change (update s.cpus d core d).point.hand = some p at hand
      rw [update_self] at hand ⊢
      rw [update_self]
      exact fits hand
    have ne : p' ≠ p := by
      rintro rfl
      exact same (ready.handUnique d c p' pre mine)
    rw [others ne, update_of_ne same]
    exact ready.fits d p' pre
  intro d p' here
  change (update s.cpus c core d).point = .leaving p' at here
  change (update s.procs p x p').state ≠ .running
  by_cases same : d = c
  · rw [same, update_self] at here
    obtain ⟨rfl, stopped⟩ := leaving p' here
    rw [update_self]
    exact stopped
  rw [update_of_ne same] at here
  by_cases equal : p' = p
  · rw [equal] at here ⊢
    rw [update_self]
    exact fun running => calm running d here
  · rw [others equal]
    exact ready.leaving d p' here

/-- A CPU goes on with what it has in hand. -/
theorem move (hand : core.point.hand = (s.cpus c).point.hand)
    (fits : ∀ p, core.point.hand = some p → (s.cpus c).Fits p (s.procs p).state →
      core.Fits p (s.procs p).state)
    (leaving : ∀ p, core.point = .leaving p → (s.procs p).state ≠ .running) :
    (s.setCore c core).Ready := by
  have hands : ∀ d p', (update s.cpus c core d).point.hand = some p' →
      (s.cpus d).point.hand = some p' := by
    intro d p' there
    by_cases same : d = c
    · rw [same, update_self, hand] at there
      rw [same]
      exact there
    · rwa [update_of_ne same] at there
  refine ⟨ready.heapNodup, ready.queueNodup, ready.queueValid, ready.heap, ready.queue,
    ?_, ?_, ?_, ?_, ?_⟩
  · exact fun p' mem d there => ready.heapHand p' mem d (hands d p' there)
  · exact fun p' mem d there => ready.queueHand p' mem d (hands d p' there)
  · intro d e p' atD atE
    exact ready.handUnique d e p' (hands d p' atD) (hands e p' atE)
  · intro d p' there
    have pre := ready.fits d p' (hands d p' there)
    change (update s.cpus c core d).Fits p' (s.procs p').state
    by_cases same : d = c
    · subst same
      change (update s.cpus d core d).point.hand = some p' at there
      rw [update_self] at there ⊢
      exact fits p' there pre
    · rw [update_of_ne same]
      exact pre
  intro d p' here
  change (update s.cpus c core d).point = .leaving p' at here
  by_cases same : d = c
  · rw [same, update_self] at here
    exact leaving p' here
  · rw [update_of_ne same] at here
    exact ready.leaving d p' here

/-- A store that does not change the state of a process, or wakes it. -/
theorem store (kept : x.state = (s.procs p).state ∨
    (s.procs p).state = .sleeping ∧ x.state = .runnable) : (s.setProc p x).Ready := by
  have states : ∀ p', (update s.procs p x p').state = (s.procs p').state ∨
      (s.procs p').state = .sleeping ∧ (update s.procs p x p').state = .runnable := by
    intro p'
    by_cases same : p' = p
    · rw [same, update_self]
      exact kept
    · rw [update_of_ne same]
      exact .inl rfl
  refine ⟨ready.heapNodup, ready.queueNodup, ready.queueValid, ?_, ?_, ready.heapHand,
    ready.queueHand, ready.handUnique, ?_, ?_⟩
  · intro p' mem
    obtain same | ⟨asleep, -⟩ := states p'
    · exact same.trans (ready.heap p' mem)
    · rw [ready.heap p' mem] at asleep
      cases asleep
  · intro p' mem
    obtain same | ⟨asleep, -⟩ := states p'
    · exact same.trans (ready.queue p' mem)
    · rw [ready.queue p' mem] at asleep
      cases asleep
  · intro d p' hand
    have pre := ready.fits d p' hand
    change (s.cpus d).Fits p' (update s.procs p x p').state
    obtain same | ⟨asleep, woken⟩ := states p'
    · rw [same]
      exact pre
    rw [woken]
    rw [asleep] at pre
    obtain listed | stuck := pre
    · exact .inl (SchedPoint.runnable_of_sleeping listed)
    · exact .inr stuck
  · intro d p' here
    obtain same | ⟨-, woken⟩ := states p'
    · exact fun running => ready.leaving d p' here (same.symm.trans running)
    · exact fun running => by cases woken.symm.trans running

theorem panic : (s.panic c).Ready := by
  apply ready.move
  · rfl
  · rintro p - (listed | ⟨-, stuck⟩)
    · exact .inl listed
    · exact .inr ⟨rfl, stuck⟩
  · exact ready.leaving c

/-- The code on the stack of a live CPU goes on. -/
theorem moveFrames (core : Core m) (live : (s.cpus c).panicked = false)
    (point : core.point = (s.cpus c).point) : (s.setCore c core).Ready := by
  apply ready.move
  · rw [point]
  · rintro p - (listed | ⟨stuck, -⟩)
    · rw [← point] at listed
      exact .inl listed
    · rw [live] at stuck
      cases stuck
  · rw [point]
    exact ready.leaving c

/-- The scheduler of a live CPU goes on with the same process in hand. -/
theorem movePoint (live : (s.cpus c).panicked = false)
    (hand : core.point.hand = (s.cpus c).point.hand)
    (states : (s.cpus c).point.states ⊆ core.point.states)
    (stays : ∀ p, core.point ≠ .leaving p) : (s.setCore c core).Ready := by
  apply ready.move hand
  · rintro p - (listed | ⟨stuck, -⟩)
    · exact .inl (states listed)
    · rw [live] at stuck
      cases stuck
  · exact fun p here => (stays p here).elim

end

/-- The locks have no part in the places. -/
theorem setLock (moved : (s.setCore c core).Ready) {holder : Option (Fin n)} :
    (s.setLock lock holder c core).Ready :=
  ⟨moved.heapNodup, moved.queueNodup, moved.queueValid, moved.heap, moved.queue,
    moved.heapHand, moved.queueHand, moved.handUnique, moved.fits, moved.leaving⟩

variable (ready : s.Ready)
include ready

theorem ticks (ticks : UInt32) : Ready { s with ticks := ticks } :=
  ⟨ready.heapNodup, ready.queueNodup, ready.queueValid, ready.heap, ready.queue,
    ready.heapHand, ready.queueHand, ready.handUnique, ready.fits, ready.leaving⟩

/-! ### The queues -/

/-- A runnable process whose lock the scan holds is in no place. -/
theorem nowhere (inv : s.Locked) (here : (s.cpus c).point = .scanProc p)
    (runnable : (s.procs p).state = .runnable) (d : Fin n) : (s.cpus d).point.hand ≠ some p := by
  have pqHeld : Lock.pq ∈ (s.cpus c).holds := by
    apply inv.mem_holds
    rw [here]
    simp [SchedPoint.locks]
  have procHeld : Lock.proc p ∈ (s.cpus c).holds := by
    apply inv.mem_holds
    rw [here]
    simp [SchedPoint.locks]
  intro hand
  have ne : d ≠ c := by
    rintro rfl
    rw [here] at hand
    cases hand
  obtain listed | ⟨-, -, stuck⟩ := ready.fits d p hand
  · rw [runnable] at listed
    -- Only three places fit a runnable process, and each holds one of the two locks.
    cases there : (s.cpus d).point with
    | popped =>
      apply ne
      apply inv.exclusive rfl _ pqHeld
      apply inv.mem_holds
      rw [there]
      simp [SchedPoint.locks]
    | choosing =>
      apply ne
      apply inv.exclusive rfl _ pqHeld
      apply inv.mem_holds
      rw [there]
      simp [SchedPoint.locks]
    | returned =>
      rw [there] at hand
      cases hand
      apply ne
      apply inv.exclusive rfl _ procHeld
      apply inv.mem_holds
      rw [there]
      simp [SchedPoint.locks]
    | tested _ flag =>
      rw [there] at listed
      cases flag with
      | false => cases listed
      | true => simp [SchedPoint.states] at listed
    | _ =>
      rw [there] at listed
      simp [SchedPoint.states] at listed
  · exact ne (inv.exclusive rfl stuck procHeld)

variable {pq : PriorityQueue}

/-- The scan puts a process into the heap. -/
theorem push (inv : s.Locked) (here : (s.cpus c).point = .scanProc p)
    (runnable : (s.procs p).state = .runnable) (absent : p ∉ s.pq.procs)
    (pushed : pq.procs = p ::ₘ s.pq.procs) : Ready { s with pq := pq } := by
  have nowhere := ready.nowhere inv here runnable
  refine ⟨?_, ready.queueNodup, ready.queueValid, ?_, ready.queue, ?_, ready.queueHand,
    ready.handUnique, ready.fits, ready.leaving⟩
  · rw [pushed, Multiset.nodup_cons]
    exact ⟨absent, ready.heapNodup⟩
  · intro p' mem
    rw [pushed, Multiset.mem_cons] at mem
    obtain rfl | mem := mem
    · exact runnable
    · exact ready.heap p' mem
  intro p' mem
  rw [pushed, Multiset.mem_cons] at mem
  obtain rfl | mem := mem
  · exact nowhere
  · exact ready.heapHand p' mem

/-- A CPU takes a process from the heap or the queue. -/
theorem takeHand (empty : (s.cpus c).point.hand = none) (hand : core.point.hand = some p)
    (nowhere : ∀ d, (s.cpus d).point.hand ≠ some p) (heap : p ∉ s.pq.procs)
    (queue : p ∉ s.q.toList) (fits : (s.procs p).state ∈ core.point.states)
    (stays : ∀ p, core.point ≠ .leaving p) : (s.setCore c core).Ready := by
  have hands : ∀ d p', (update s.cpus c core d).point.hand = some p' →
      (s.cpus d).point.hand = some p' ∨ d = c ∧ p' = p := by
    intro d p' there
    by_cases same : d = c
    · rw [same, update_self, hand] at there
      exact .inr ⟨same, (Option.some.inj there).symm⟩
    · rw [update_of_ne same] at there
      exact .inl there
  refine ⟨ready.heapNodup, ready.queueNodup, ready.queueValid, ready.heap, ready.queue,
    ?_, ?_, ?_, ?_, ?_⟩
  · intro p' mem d there
    obtain pre | ⟨-, rfl⟩ := hands d p' there
    · exact ready.heapHand p' mem d pre
    · exact heap mem
  · intro p' mem d there
    obtain pre | ⟨-, rfl⟩ := hands d p' there
    · exact ready.queueHand p' mem d pre
    · exact queue mem
  · intro d e p' atD atE
    obtain first | ⟨rfl, rfl⟩ := hands d p' atD
    · obtain second | ⟨rfl, rfl⟩ := hands e p' atE
      · exact ready.handUnique d e p' first second
      · exact (nowhere d first).elim
    · obtain second | ⟨rfl, -⟩ := hands e p' atE
      · exact (nowhere e second).elim
      · rfl
  · intro d p' there
    change (update s.cpus c core d).Fits p' (s.procs p').state
    by_cases same : d = c
    · subst same
      obtain pre | ⟨-, rfl⟩ := hands d p' there
      · rw [empty] at pre
        cases pre
      · rw [update_self]
        exact .inl fits
    · obtain pre | ⟨equal, -⟩ := hands d p' there
      · rw [update_of_ne same]
        exact ready.fits d p' pre
      · exact (same equal).elim
  intro d p' here
  change (update s.cpus c core d).point = .leaving p' at here
  by_cases same : d = c
  · rw [same, update_self] at here
    exact (stays p' here).elim
  · rw [update_of_ne same] at here
    exact ready.leaving d p' here

/-- `pq_pop` takes a process out of the heap. -/
theorem takeHeap (empty : (s.cpus c).point.hand = none) (popped : s.pq.procs = p ::ₘ pq.procs) :
    (setCore { s with pq := pq } c ((s.cpus c).goto (.popped p))).Ready := by
  have inHeap : p ∈ s.pq.procs := by
    rw [popped]
    exact Multiset.mem_cons_self p _
  have runnable := ready.heap p inHeap
  have split := ready.heapNodup
  rw [popped, Multiset.nodup_cons] at split
  have kept : ∀ {p'}, p' ∈ pq.procs → p' ∈ s.pq.procs := by
    intro p' mem
    rw [popped]
    exact Multiset.mem_cons_of_mem mem
  have smaller : Ready { s with pq := pq } :=
    ⟨split.2, ready.queueNodup, ready.queueValid, fun p' mem => ready.heap p' (kept mem),
      ready.queue, fun p' mem => ready.heapHand p' (kept mem), ready.queueHand,
      ready.handUnique, ready.fits, ready.leaving⟩
  apply smaller.takeHand empty rfl (ready.heapHand p inHeap) split.1
  · intro queued
    have parked := ready.queue p queued
    rw [runnable] at parked
    cases parked
  · exact List.mem_singleton.mpr runnable
  · exact nofun

/-- `pop` takes a process out of the quota queue. -/
theorem takeQueue (empty : (s.cpus c).point.hand = none) {q : Queue}
    (popped : s.q.toList = p :: q.toList) (valid : q.Valid)
    (here : core.point = .dispatch p) : (setCore { s with q := q } c core).Ready := by
  have inQueue : p ∈ s.q.toList := by
    rw [popped]
    exact .head _
  have parked := ready.queue p inQueue
  have split := ready.queueNodup
  rw [popped, List.nodup_cons] at split
  have kept : ∀ {p'}, p' ∈ q.toList → p' ∈ s.q.toList := by
    intro p' mem
    rw [popped]
    exact .tail p mem
  have smaller : Ready { s with q := q } :=
    ⟨ready.heapNodup, split.2, valid, ready.heap, fun p' mem => ready.queue p' (kept mem),
      ready.heapHand, fun p' mem => ready.queueHand p' (kept mem), ready.handUnique,
      ready.fits, ready.leaving⟩
  apply smaller.takeHand empty _ (ready.queueHand p inQueue) _ split.1
  · rw [here]
    rw [parked]
    simp [SchedPoint.states]
  · rw [here]
    exact nofun
  · rw [here]
    rfl
  intro inHeap
  have runnable := ready.heap p inHeap
  rw [parked] at runnable
  cases runnable

/-- `enqueue` parks the process in the hands of a CPU. -/
theorem park (here : (s.cpus c).point = .parked p)
    (gone : core.point = .leaving p) (live : (s.cpus c).panicked = false) :
    (setCore { s with q := (enqueue s.q p).2 } c core).Ready := by
  have mine : (s.cpus c).point.hand = some p := by
    rw [here]
    rfl
  have parked : (s.procs p).state = .passedQuota := by
    obtain listed | ⟨stuck, -⟩ := ready.fits c p mine
    · rw [here] at listed
      exact List.mem_singleton.mp listed
    · rw [live] at stuck
      cases stuck
  have absent : p ∉ s.q.toList := fun mem => ready.queueHand p mem c mine
  have room : s.q.size < nproc := by
    have smaller := Finset.card_lt_univ_of_notMem (s := s.q.toList.toFinset)
      (x := p) (by simpa using absent)
    rwa [List.toFinset_card_of_nodup ready.queueNodup, Queue.toList_length,
      Fintype.card_fin] at smaller
  obtain ⟨-, valid, contents⟩ := enqueue_spec ready.queueValid room p
  have hands : ∀ d p', (update s.cpus c core d).point.hand = some p' →
      (s.cpus d).point.hand = some p' ∧ d ≠ c := by
    intro d p' there
    by_cases same : d = c
    · rw [same, update_self, gone] at there
      cases there
    · rw [update_of_ne same] at there
      exact ⟨there, same⟩
  refine ⟨ready.heapNodup, ?_, valid, ready.heap, ?_, ?_, ?_, ?_, ?_, ?_⟩
  · change ((enqueue s.q p).2.toList).Nodup
    rw [contents]
    exact ready.queueNodup.append (List.nodup_singleton p) (by simpa using absent)
  · intro p' mem
    change p' ∈ (enqueue s.q p).2.toList at mem
    rw [contents, List.mem_append, List.mem_singleton] at mem
    obtain mem | rfl := mem
    · exact ready.queue p' mem
    · exact parked
  · exact fun p' mem d there => ready.heapHand p' mem d (hands d p' there).1
  · intro p' mem d there
    obtain ⟨pre, ne⟩ := hands d p' there
    change p' ∈ (enqueue s.q p).2.toList at mem
    rw [contents, List.mem_append, List.mem_singleton] at mem
    obtain mem | rfl := mem
    · exact ready.queueHand p' mem d pre
    · exact ne (ready.handUnique d c p' pre mine)
  · intro d e p' atD atE
    exact ready.handUnique d e p' (hands d p' atD).1 (hands e p' atE).1
  · intro d p' there
    obtain ⟨pre, ne⟩ := hands d p' there
    change (update s.cpus c core d).Fits p' (s.procs p').state
    rw [update_of_ne ne]
    exact ready.fits d p' pre
  intro d p' there
  change (update s.cpus c core d).point = .leaving p' at there
  change (s.procs p').state ≠ .running
  by_cases same : d = c
  · rw [same, update_self, gone] at there
    cases there
    rw [parked]
    exact nofun
  · rw [update_of_ne same] at there
    exact ready.leaving d p' there

/-! ### Steps -/

/-- The state of a process that a live CPU has in hand. -/
theorem state_of_hand (live : (s.cpus c).panicked = false) (here : (s.cpus c).point = point)
    (hand : point.hand = some p) : (s.procs p).state ∈ point.states := by
  rw [← here] at hand ⊢
  obtain listed | ⟨stuck, -⟩ := ready.fits c p hand
  · exact listed
  · rw [live] at stuck
    cases stuck

/-- What the scheduler stores after `swtch` fits the place where it goes on. -/
theorem limits_fits (live : (s.cpus c).panicked = false) (here : (s.cpus c).point = .returned p) :
    (s.limits p).2 = .leaving p ∧ (s.limits p).1.state ≠ .running ∨
      (s.limits p).2 = .parking p ∧ (s.limits p).1.state = .passedQuota := by
  have state : (s.procs p).state = .runnable ∨ (s.procs p).state = .sleeping := by
    simpa [SchedPoint.states] using ready.state_of_hand live here rfl
  rw [limits]
  split
  · exact .inl ⟨rfl, by simp⟩
  split
  · exact .inr ⟨rfl, rfl⟩
  refine .inl ⟨rfl, ?_⟩
  obtain runnable | sleeping := state
  · rw [runnable]
    decide
  · rw [sleeping]
    decide

end Ready

theorem Starts.ready (starts : s.Starts) : s.Ready := by
  have hands : ∀ c, (s.cpus c).point = .scan 0 := fun c => by rw [starts.cpus c]
  refine ⟨?_, ?_, ?_, ?_, ?_, ?_, ?_, ?_, ?_, ?_⟩
  · rw [starts.pq]
    exact Multiset.nodup_zero
  · rw [starts.q]
    exact List.nodup_nil
  · rw [starts.q]
    exact Queue.valid_initializeQueue
  · rw [starts.pq]
    exact fun _ mem => (Multiset.notMem_zero _ mem).elim
  · rw [starts.q]
    exact nofun
  · rw [starts.pq]
    exact fun _ mem => (Multiset.notMem_zero _ mem).elim
  · rw [starts.q]
    exact nofun
  · intro c d p hand
    rw [hands c] at hand
    cases hand
  · intro c p hand
    rw [hands c] at hand
    cases hand
  · intro c p here
    rw [hands c] at here
    cases here

end Machine

end Smp

end CustomXv6

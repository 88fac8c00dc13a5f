/-
Module: CustomXv6.Kernel.SmpSteps
Purpose: Every step of the machine keeps its invariants and touches at most one process.
Trusted boundary: none
Main exports: Smp.Footprint, Smp.Kept
-/
import CustomXv6.Kernel.SmpReady

namespace CustomXv6

open Function (update update_of_ne update_self)
open Counting

namespace Smp

variable {n m : Nat}

/-! ### What a step touches -/

/-- The process whose state or channel the next step of a CPU may change. -/
def Machine.touches (s : Machine n m) : Action n m → Option ProcId
  | .exec c =>
    match (s.cpus c).frames with
    | [] =>
      match (s.cpus c).point with
      | .choosing p => some p
      | .testing p => some p
      | .dispatching p => some p
      | .returned p => some p
      | .leaving p => some p
      | _ => none
    | .sleepStore _ _ :: _ => (s.cpus c).proc
    | .sleepResume _ _ :: _ => (s.cpus c).proc
    | .yieldLocked :: _ => (s.cpus c).proc
    | .wakeupLocked _ p :: _ => some p
    | .killLocked _ p :: _ => some p
    | _ => none
  | .call c .usertrap => (s.cpus c).proc
  | _ => none

/-- A step of CPU `c` leaves the other CPUs and all processes but one alone. -/
structure Footprint (c : Fin n) (touched : Option ProcId) (s t : Machine n m) : Prop where
  cpus : ∀ d, d ≠ c → t.cpus d = s.cpus d
  locks : ∀ lock d, d ≠ c → s.locks lock = some d → t.locks lock = some d
  procs : ∀ p, touched ≠ some p →
    (t.procs p).state = (s.procs p).state ∧ (t.procs p).chan = (s.procs p).chan

namespace Footprint

variable {s t u : Machine n m} {c : Fin n} {touched : Option ProcId}

theorem trans (first : Footprint c touched s t) (second : Footprint c touched t u) :
    Footprint c touched s u := by
  constructor
  · intro d other
    rw [second.cpus d other, first.cpus d other]
  · intro lock d other held
    exact second.locks lock d other (first.locks lock d other held)
  · intro p untouched
    obtain ⟨state, chan⟩ := second.procs p untouched
    rw [state, chan]
    exact first.procs p untouched

theorem setCore (s : Machine n m) (c : Fin n) (core : Core m) :
    Footprint c touched s (s.setCore c core) :=
  ⟨fun _ other => update_of_ne other _ _, fun _ _ _ held => held, fun _ _ => ⟨rfl, rfl⟩⟩

theorem others (s : Machine n m) (p : ProcId) (x : Task m) (p' : ProcId)
    (untouched : some p ≠ some p') :
    ((s.setProc p x).procs p').state = (s.procs p').state ∧
      ((s.setProc p x).procs p').chan = (s.procs p').chan := by
  have ne : p' ≠ p := fun same => untouched (congrArg some same.symm)
  rw [Machine.setProc_procs, update_of_ne ne]
  exact ⟨rfl, rfl⟩

theorem setProc (s : Machine n m) (c : Fin n) (p : ProcId) (x : Task m) :
    Footprint c (some p) s (s.setProc p x) :=
  ⟨fun _ _ => rfl, fun _ _ _ held => held, others s p x⟩

theorem setLock {lock : Lock m} {holder : Option (Fin n)} {core : Core m}
    (mine : s.locks lock = none ∨ s.locks lock = some c) :
    Footprint c touched s (s.setLock lock holder c core) := by
  refine ⟨fun _ other => update_of_ne other _ _, fun l d other held => ?_, fun _ _ => ⟨rfl, rfl⟩⟩
  have ne : l ≠ lock := by
    rintro rfl
    obtain free | here := mine
    · rw [free] at held
      cases held
    · rw [here] at held
      exact other (Option.some.inj held).symm
  rw [Machine.setLock_locks, update_of_ne ne]
  exact held

end Footprint

/-! ### Steps that keep everything -/

/-- Both invariants hold after a step of CPU `c` that touches one process. -/
structure Kept (c : Fin n) (touched : Option ProcId) (s t : Machine n m) : Prop where
  locked : t.Locked
  ready : t.Ready
  footprint : Footprint c touched s t

/-- Stores into one process and the queues. -/
structure Stored (touched : Option ProcId) (s u : Machine n m) : Prop where
  cpus : u.cpus = s.cpus
  locks : u.locks = s.locks
  contexts : ∀ p, (u.procs p).context = (s.procs p).context
  procs : ∀ p, touched ≠ some p →
    (u.procs p).state = (s.procs p).state ∧ (u.procs p).chan = (s.procs p).chan

variable {x : Task m}

namespace Stored

variable {s u : Machine n m} {touched : Option ProcId} {c : Fin n}

theorem none : Stored touched s s := ⟨rfl, rfl, fun _ => rfl, fun _ _ => ⟨rfl, rfl⟩⟩

theorem queues (pq : PriorityQueue) (q : Queue) (ticks : UInt32) :
    Stored touched s { s with pq := pq, q := q, ticks := ticks } :=
  ⟨rfl, rfl, fun _ => rfl, fun _ _ => ⟨rfl, rfl⟩⟩

variable {p : ProcId}

theorem proc (context : x.context = (s.procs p).context) : Stored (some p) s (s.setProc p x) := by
  refine ⟨rfl, rfl, ?_, Footprint.others s p x⟩
  exact (Function.forall_update_iff s.procs fun p x => x.context = (s.procs p).context).mpr
    ⟨context, fun _ _ => rfl⟩

/-- A store that leaves the state and the channel of the process as they are. -/
theorem rest (context : x.context = (s.procs p).context) (state : x.state = (s.procs p).state)
    (chan : x.chan = (s.procs p).chan) : Stored touched s (s.setProc p x) := by
  refine ⟨rfl, rfl, (proc context).contexts, fun p' _ => ?_⟩
  by_cases same : some p = some p'
  · cases same
    rw [Machine.setProc_procs, update_self]
    exact ⟨state, chan⟩
  · exact Footprint.others s p x p' same

theorem locked (stored : Stored touched s u) (inv : s.Locked) : u.Locked := by
  obtain ⟨cpus, locks, contexts, -⟩ := stored
  constructor
  · rw [cpus]
    exact inv.cores
  · intro p
    rw [contexts]
    exact inv.contexts p
  · rw [cpus, locks]
    exact inv.exact
  · rw [cpus, locks]
    exact inv.counts
  · rw [cpus]
    exact inv.masked
  · rw [cpus, locks]
    exact inv.alone

theorem footprint (stored : Stored touched s u) : Footprint c touched s u := by
  refine ⟨fun d _ => ?_, fun lock d _ held => ?_, stored.procs⟩
  · rw [stored.cpus]
  · rw [stored.locks]
    exact held

end Stored

namespace Kept

open Machine

/-- What the scheduler stores after `swtch` leaves the saved stack as it is. -/
theorem limits_context (s : Machine n m) (p : ProcId) :
    (s.limits p).1.context = (s.procs p).context := by
  rw [limits]
  split
  · rfl
  · split <;> rfl

variable {s t u : Machine n m} {c : Fin n} {core : Core m} {lock : Lock m} {p : ProcId}
  {touched : Option ProcId} {next : Core m → Core m}

theorem panic (inv : s.Locked) (ready : s.Ready) : Kept c touched s (s.panic c) :=
  ⟨inv.panic, ready.panic, .setCore s c _⟩

/-- A lock is taken, or the CPU panics. -/
theorem take (inv : s.Locked) (ready : s.Ready) (acquired : s.acquire c lock next = some t)
    (wf : (next (s.cpus c).pushOff).WellFormed)
    (noff : (next (s.cpus c).pushOff).noff = (s.cpus c).noff + 1)
    (masked : (next (s.cpus c).pushOff).intr = false) (holds : ∀ l, l.inKernel →
      (l ∈ (next (s.cpus c).pushOff).holds ↔ l = lock ∨ l ∈ (s.cpus c).holds))
    (alone : (next (s.cpus c).pushOff).frames = [] → (s.cpus c).frames = [] ∧ lock.inKernel)
    (moved : (s.setCore c (next (s.cpus c).pushOff)).Ready) : Kept c none s t := by
  obtain ⟨free, rfl⟩ | rfl := acquire_cases acquired
  · exact ⟨inv.take free wf noff masked holds alone, moved.setLock, .setLock (.inl free)⟩
  · exact panic inv ready

/-- A lock that the CPU holds is given up after the stores of its critical section. -/
theorem give (inv : s.Locked) (stored : Stored touched s u) (held : s.locks lock = some c)
    (wf : (next (s.cpus c).popOff).WellFormed)
    (noff : (next (s.cpus c).popOff).noff = (s.cpus c).noff - 1)
    (masked : 0 < (next (s.cpus c).popOff).noff → (next (s.cpus c).popOff).intr = false)
    (holds : ∀ l, l.inKernel →
      (l ∈ (next (s.cpus c).popOff).holds ↔ l ≠ lock ∧ l ∈ (s.cpus c).holds))
    (alone : (next (s.cpus c).popOff).frames = [] → (s.cpus c).frames = [])
    (moved : (u.setCore c (next (s.cpus c).popOff)).Ready) :
    Kept c touched s (u.release c lock next) := by
  have heldStill : u.locks lock = some c := by
    rw [stored.locks]
    exact held
  have same : s.cpus c = u.cpus c := by rw [stored.cpus]
  rw [inv.release_eq held stored.locks same.symm]
  refine ⟨?_, moved.setLock, stored.footprint.trans (.setLock (.inr heldStill))⟩
  generalize next (s.cpus c).popOff = core at *
  rw [same] at noff holds alone
  exact (stored.locked inv).give heldStill wf noff masked holds alone

/-- The CPU goes on with the locks it holds. -/
theorem move (inv : s.Locked) (stored : Stored touched s u) (wf : core.WellFormed)
    (noff : core.noff = (s.cpus c).noff)
    (masked : core.intr = true → (s.cpus c).intr = true ∨ core.noff = 0)
    (holds : ∀ l, l.inKernel → (l ∈ core.holds ↔ l ∈ (s.cpus c).holds))
    (alone : core.frames = [] → ∀ k, s.locks (.lk k) ≠ some c)
    (moved : (u.setCore c core).Ready) : Kept c touched s (u.setCore c core) := by
  refine ⟨?_, moved, stored.footprint.trans (.setCore u c core)⟩
  rw [← stored.cpus] at noff masked holds
  rw [← stored.locks] at alone
  exact (stored.locked inv).move c core wf noff masked holds alone

/-! ### The scheduler -/

/-- The place `after` follows `before` with the same process in hand. -/
structure Follows (pre after : SchedPoint) : Prop where
  runs : after.runs = pre.runs := by rfl
  hand : after.hand = pre.hand := by rfl
  states : pre.states ⊆ after.states := by simp [SchedPoint.states]
  out : after.inSwtch = false := by rfl
  stays : ∀ p, after ≠ .leaving p := by simp

variable {point : SchedPoint}

theorem not_swtched (out : point.inSwtch = false) (p : ProcId) : point ≠ .swtched p := by
  rintro rfl
  cases out

section Scheduler

variable (inv : s.Locked) (ready : s.Ready) (live : (s.cpus c).panicked = false)
  (empty : (s.cpus c).frames = []) {pre after : SchedPoint}
  (here : (s.cpus c).point = pre)

include inv ready live empty here

theorem schedTake (acquired : s.acquire c lock (Core.goto after) = some t)
    (kernel : lock.inKernel) (locks : (after.locks : List (Lock m)) = lock :: pre.locks)
    (follows : Follows pre after) : Kept c none s t := by
  have runs : after.runs = (s.cpus c).pushOff.point.runs := by
    rw [follows.runs, ← here]
    rfl
  have wf := (inv.cores c).pushOff.goto empty runs (not_swtched follows.out)
  refine take inv ready acquired wf rfl rfl ?_ ?_ ?_
  · intro l _
    have held : ((s.cpus c).pushOff.goto after).holds = after.locks := Core.holds_nil empty
    rw [held, Core.holds_nil empty, here, locks, List.mem_cons]
  · exact fun _ => ⟨empty, kernel⟩
  apply ready.movePoint live _ _ follows.stays
  · rw [here]
    exact follows.hand
  · rw [here]
    exact follows.states

omit ready live in
/-- The scheduler gives up the lock it took last. -/
theorem schedGive (stored : Stored touched s u) (distinct : lock ∉ (after.locks : List (Lock m)))
    (locks : (pre.locks : List (Lock m)) = lock :: after.locks)
    (runs : after.runs = pre.runs) (out : after.inSwtch = false)
    (moved : (u.setCore c ((s.cpus c).popOff.goto after)).Ready) :
    Kept c touched s (u.release c lock (Core.goto after)) := by
  have same : after.runs = (s.cpus c).popOff.point.runs := by
    rw [runs, ← here]
    rfl
  have wf := (inv.cores c).popOff.goto empty same (not_swtched out)
  have held : s.locks lock = some c := by
    apply inv.held
    rw [here, locks]
    exact .head _
  have off := inv.masked_of_held held
  refine give inv stored held wf rfl (Locked.popOff_masked off) ?_ (fun _ => empty) moved
  intro l _
  have held : ((s.cpus c).popOff.goto after).holds = after.locks := Core.holds_nil empty
  rw [held, Core.holds_nil empty, here, locks, List.mem_cons]
  constructor
  · intro mem
    exact ⟨fun same => distinct (same ▸ mem), .inr mem⟩
  · rintro ⟨ne, same | mem⟩
    · exact (ne same).elim
    · exact mem

omit ready in
/-- The same with the same process in hand. -/
theorem schedPass (stored : Stored touched s u) (same : u.Ready)
    (distinct : lock ∉ (after.locks : List (Lock m)))
    (locks : (pre.locks : List (Lock m)) = lock :: after.locks)
    (follows : Follows pre after) : Kept c touched s (u.release c lock (Core.goto after)) := by
  apply schedGive inv empty here stored distinct locks follows.runs follows.out
  rw [← stored.cpus] at live here ⊢
  apply same.movePoint live _ _ follows.stays
  · rw [here]
    exact follows.hand
  · rw [here]
    exact follows.states

omit live here ready in
/-- The scheduler gives up its only lock and starts the next pass with interrupts on. -/
theorem schedRestart (stored : Stored touched s u) (only : (s.cpus c).point.locks = [lock])
    (moved : (u.setCore c (s.cpus c).popOff.restart).Ready) :
    Kept c touched s (u.release c lock Core.restart) := by
  have held : s.locks lock = some c := by
    apply inv.held
    rw [only]
    exact List.mem_singleton_self _
  have single : (s.cpus c).noff ≤ 1 := by
    rw [inv.counts c, occurrences_le_one]
    have each : ∀ l, s.locks l = some c → l = lock := by
      intro l there
      cases l with
      | lk k => exact (inv.alone c empty k there).elim
      | _ =>
        have mem := (inv.exact c _ rfl).mp there
        rw [Core.holds_nil empty, only] at mem
        exact List.mem_singleton.mp mem
    intro l l' atL atL'
    rw [each l atL, each l' atL']
  refine give inv stored held ⟨rfl, .inl empty, nofun, ?_⟩ rfl ?_ ?_ (fun _ => empty) moved
  · intro f rest top
    change (s.cpus c).frames = f :: rest at top
    rw [empty] at top
    cases top
  · intro pos
    change 0 < (s.cpus c).noff - 1 at pos
    omega
  · intro l _
    have none : (s.cpus c).popOff.restart.holds = [] := Core.holds_nil empty
    rw [none, Core.holds_nil empty, only]
    simp

omit ready live in
/-- The scheduler goes on with the locks it holds. -/
theorem schedMove (stored : Stored touched s u)
    (locks : (after.locks : List (Lock m)) = pre.locks) (runs : after.runs = pre.runs)
    (out : after.inSwtch = false) (moved : (u.setCore c ((s.cpus c).goto after)).Ready) :
    Kept c touched s (u.setCore c ((s.cpus c).goto after)) := by
  refine move inv stored ((inv.cores c).goto empty ?_ (not_swtched out)) rfl .inl ?_
    (fun _ => inv.alone c empty) moved
  · rw [runs, here]
  intro l _
  have held : ((s.cpus c).goto after).holds = after.locks := Core.holds_nil empty
  rw [held, Core.holds_nil empty, here, locks]

end Scheduler

section Points

variable (inv : s.Locked) (ready : s.Ready) (live : (s.cpus c).panicked = false)
  (empty : (s.cpus c).frames = [])

include inv ready live empty

/-- The entry is queued, or is not runnable, or the heap is full. -/
theorem scanProc (here : (s.cpus c).point = .scanProc p)
    (ran : s.scheduler c (.scanProc p) = some t) : Kept c none s t := by
  rw [Machine.scheduler] at ran
  split at ran
  · cases ran
    exact panic inv ready
  rename_i accepted pq pushed
  cases ran
  have queued : Ready { s with pq := pq } := by
    cases accepted with
    | false =>
      obtain ⟨rfl, -⟩ := pqCheckAndPush_refused pushed
      exact ready
    | true =>
      obtain ⟨runnable, absent, -, contents⟩ := procs_pqCheckAndPush pushed
      exact ready.push inv here runnable absent contents
  exact schedPass inv live empty here (.queues pq s.q s.ticks) queued
    (by simp [SchedPoint.locks]) rfl {}

theorem popping (here : (s.cpus c).point = .popping)
    (ran : s.scheduler c .popping = some t) : Kept c none s t := by
  rw [Machine.scheduler] at ran
  split at ran
  · cases ran
    exact schedPass inv live empty here .none ready (by simp [SchedPoint.locks]) rfl {}
  rename_i p pq popped
  cases ran
  refine schedMove inv empty here (.queues pq s.q s.ticks) rfl rfl rfl ?_
  exact ready.takeHeap (by rw [here]; rfl) (procs_pqPop popped)

omit live in
theorem choosing (here : (s.cpus c).point = .choosing p)
    (ran : s.scheduler c (.choosing p) = some t) : Kept c (some p) s t := by
  cases ran
  refine schedGive inv empty here (.proc rfl) (by simp [SchedPoint.locks]) rfl rfl rfl ?_
  apply ready.act
  · rw [here]
    rfl
  · exact .inl rfl
  · exact fun _ => .inl (.head _)
  · rintro _ ⟨⟩
  · simp

theorem testing (here : (s.cpus c).point = .testing p)
    (ran : s.scheduler c (.testing p) = some t) : Kept c (some p) s t := by
  rw [Machine.scheduler] at ran
  split at ran
  · cases ran
    refine schedGive inv empty here (.proc rfl) (by simp [SchedPoint.locks]) rfl rfl rfl ?_
    apply ready.act
    · rw [here]
      rfl
    · exact .inr rfl
    · rintro ⟨⟩
    · rintro _ ⟨⟩
    · simp
  · cases ran
    exact schedPass inv live empty here .none ready (by simp [SchedPoint.locks]) rfl {}

theorem poppingQ (here : (s.cpus c).point = .poppingQ)
    (ran : s.scheduler c .poppingQ = some t) : Kept c none s t := by
  rw [Machine.scheduler] at ran
  split at ran
  · rename_i q popped
    cases ran
    obtain rfl := pop_none popped
    refine schedRestart inv empty .none ?_ ?_
    · rw [here]
      rfl
    apply ready.movePoint live
    · rw [here]
      rfl
    · rw [here]
      exact List.nil_subset _
    · rintro _ ⟨⟩
  rename_i p q popped
  cases ran
  obtain ⟨contents, valid⟩ := pop_some ready.queueValid popped
  refine schedGive inv empty here (.queues s.pq q s.ticks) (by simp [SchedPoint.locks]) rfl
    rfl rfl ?_
  exact ready.takeQueue (by rw [here]; rfl) contents valid rfl

omit live in
/-- The scheduler switches to the stack the process has saved. -/
theorem dispatching (here : (s.cpus c).point = .dispatching p)
    (ran : s.scheduler c (.dispatching p) = some t) : Kept c (some p) s t := by
  cases ran
  obtain ⟨f, rest, context, resumes, stack⟩ := inv.contexts p
  have filled : (s.procs p).context ≠ [] := by
    rw [context]
    exact List.cons_ne_nil f rest
  refine move inv (.proc rfl) ⟨rfl, .inr ⟨?_, rfl⟩, fun _ _ => filled, ?_⟩ rfl .inl ?_ ?_ ?_
  · change Based _ (s.procs p).context
    rw [context]
    exact stack p
  · intro g _ top unowned
    rw [context] at top
    cases top
    rw [f.lock_of_resumes resumes] at unowned
    cases unowned
  · intro l _
    have after : Core.holds { s.cpus c with
        proc := some p, point := .swtched p, frames := (s.procs p).context } =
          (f.lock (some p)).toList.map .proc := Core.holds_cons context
    rw [after, f.lock_of_resumes resumes, Core.holds_nil empty, here]
    rfl
  · exact fun absurd => (filled absurd).elim
  apply ready.act
  · rw [here]
    rfl
  · exact .inl rfl
  · exact fun _ => .inl (.head _)
  · simp
  -- The CPU that is leaving the process still holds the lock of this dispatch.
  intro _ d there
  have mine : Lock.proc p ∈ (s.cpus c).holds := by
    apply inv.mem_holds
    rw [here]
    exact .head _
  have other : Lock.proc p ∈ (s.cpus d).holds := by
    apply inv.mem_holds
    rw [there]
    exact .head _
  have same := inv.exclusive rfl mine other
  rw [← same, here] at there
  cases there

/-- The process is stopped, parked, or kept. -/
theorem returned (here : (s.cpus c).point = .returned p)
    (ran : s.scheduler c (.returned p) = some t) : Kept c (some p) s t := by
  cases ran
  have mine : (s.cpus c).point.hand = some p := by
    rw [here]
    rfl
  have stored : Stored (some p) s (s.setProc p (s.limits p).1) := .proc (limits_context s p)
  obtain ⟨point, stopped⟩ | ⟨point, parked⟩ := ready.limits_fits live here
  · rw [point]
    refine schedMove inv empty here stored rfl rfl rfl ?_
    apply ready.act mine
    · exact .inr rfl
    · rintro ⟨⟩
    · intro _ there
      cases there
      exact ⟨rfl, stopped⟩
    · exact fun running => (stopped running).elim
  rw [point]
  refine schedMove inv empty here stored rfl rfl rfl ?_
  apply ready.act mine
  · exact .inl rfl
  · rw [parked]
    exact fun _ => .inl (.head _)
  · rintro _ ⟨⟩
  · rw [parked]
    simp

theorem leaving (here : (s.cpus c).point = .leaving p)
    (ran : s.scheduler c (.leaving p) = some t) : Kept c (some p) s t := by
  cases ran
  rw [if_neg (ready.leaving c p here)]
  refine schedRestart inv empty (.proc rfl) ?_ ?_
  · rw [here]
    rfl
  have stored : (s.setProc p (s.procs p)).Ready := ready.store (.inl rfl)
  apply stored.movePoint live
  · rw [setProc_cpus, here]
    rfl
  · rw [setProc_cpus, here]
    exact List.nil_subset _
  · rintro _ ⟨⟩

/-- Every step of the scheduler of a live CPU. -/
theorem scheduler (here : (s.cpus c).point = point) (ran : s.scheduler c point = some t) :
    Kept c (s.touches (.exec c)) s t := by
  simp only [touches, empty, here]
  cases point with
  | scan => exact schedTake inv ready live empty here ran rfl rfl {}
  | scanPq => exact schedTake inv ready live empty here ran rfl rfl {}
  | scanProc => exact scanProc inv ready live empty here ran
  | scanned =>
    cases ran
    dsimp only
    split
    · exact schedPass inv live empty here .none ready (by simp [SchedPoint.locks]) rfl {}
    · exact schedPass inv live empty here .none ready (by simp [SchedPoint.locks]) rfl {}
  | popPq => exact schedTake inv ready live empty here ran rfl rfl {}
  | popping => exact popping inv ready live empty here ran
  | popped => exact schedTake inv ready live empty here ran rfl rfl {}
  | choosing => exact choosing inv ready empty here ran
  | chosen => exact schedTake inv ready live empty here ran rfl rfl {}
  | testing => exact testing inv ready live empty here ran
  | tested _ flag =>
    cases ran
    cases flag with
    | false => exact schedPass inv live empty here .none ready (by simp [SchedPoint.locks]) rfl {}
    | true => exact schedPass inv live empty here .none ready (by simp [SchedPoint.locks]) rfl {}
  | popQ => exact schedTake inv ready live empty here ran rfl rfl {}
  | poppingQ => exact poppingQ inv ready live empty here ran
  | dispatch => exact schedTake inv ready live empty here ran rfl rfl {}
  | dispatching => exact dispatching inv ready empty here ran
  | swtched => cases ran
  | returned => exact returned inv ready live empty here ran
  | parking => exact schedTake inv ready live empty here ran rfl rfl {}
  | parked p =>
    cases ran
    refine schedGive inv empty here (.queues s.pq (enqueue s.q p).2 s.ticks)
      (by simp [SchedPoint.locks]) rfl rfl rfl ?_
    exact ready.park here rfl live
  | leaving => exact leaving inv ready live empty here ran

end Points

/-! ### The code on the stack -/

section Stack

variable {f g : Frame m} {rest frames : List (Frame m)} {k : Fin m} (inv : s.Locked)
  (ready : s.Ready) (live : (s.cpus c).panicked = false)
  (top : (s.cpus c).frames = f :: rest)

include inv ready live top

/-- The code of a call takes the lock of a process. -/
theorem frameTake (acquired : s.acquire c (.proc p) (Core.setFrames (g :: rest)) = some t)
    (called : (s.cpus c).point.base f = false) (free : f.unlocked)
    (locks : g.lock (s.cpus c).proc = some p) : Kept c none s t := by
  obtain ⟨stack, none⟩ := inv.based top
  refine take inv ready acquired ((inv.cores c).pushOff.setFrames ?_ none ?_) rfl rfl ?_ nofun
    (ready.moveFrames _ live rfl)
  · exact stack.replace fun bottom => by simp [called] at bottom
  · exact fun unowned => by simp [Core.pushOff, locks] at unowned
  intro l _
  have after : ((s.cpus c).pushOff.setFrames (g :: rest)).holds =
      (g.lock (s.cpus c).proc).toList.map .proc := rfl
  rw [after, locks, Core.holds_cons top, f.lock_of_unlocked free]
  simp

omit ready live in
/-- The code of a call gives up the lock of a process, and goes on without one. -/
theorem frameGive (stored : Stored touched s u) (same : u.Ready)
    (live : (s.cpus c).panicked = false) (locks : f.lock (s.cpus c).proc = some p)
    (stack : Based (s.cpus c).point.base (g :: frames)) (free : g.unlocked) :
    Kept c touched s (u.release c (.proc p) (Core.setFrames (g :: frames))) := by
  obtain ⟨-, none⟩ := inv.based top
  have held : s.locks (.proc p) = some c := by
    rw [inv.exact c _ rfl, Core.holds_cons top, locks]
    exact List.mem_singleton_self _
  refine give inv stored held ((inv.cores c).popOff.setFrames stack none fun _ => free) rfl
    (Locked.popOff_masked (inv.masked_of_held held)) ?_ nofun ?_
  · intro l _
    have after : ((s.cpus c).popOff.setFrames (g :: frames)).holds =
        (g.lock (s.cpus c).proc).toList.map .proc := rfl
    rw [after, g.lock_of_unlocked free, Core.holds_cons top, locks]
    simp
  · rw [← stored.cpus] at live ⊢
    exact same.moveFrames _ live rfl

/-- The code on the stack takes the lock of a condition. -/
theorem conditionTake (acquired : s.acquire c (.lk k) next = some t)
    (goes : next (s.cpus c).pushOff = (s.cpus c).pushOff.setFrames (g :: frames))
    (stack : Based (s.cpus c).point.base (g :: frames)) (pre : f.unlocked)
    (free : g.unlocked) : Kept c none s t := by
  obtain ⟨-, none⟩ := inv.based top
  refine take inv ready acquired ?_ (by rw [goes]; rfl) (by rw [goes]; rfl) ?_ ?_ ?_
  · rw [goes]
    exact (inv.cores c).pushOff.setFrames stack none fun _ => free
  · intro l kernel
    have after : ((s.cpus c).pushOff.setFrames (g :: frames)).holds =
        (g.lock (s.cpus c).proc).toList.map .proc := rfl
    rw [goes, after, g.lock_of_unlocked free, Core.holds_cons top, f.lock_of_unlocked pre]
    have other : l ≠ .lk k := by
      rintro rfl
      cases kernel
    simp [other]
  · rw [goes]
    exact nofun
  · rw [goes]
    exact ready.moveFrames _ live rfl

/-- The code on the stack gives up the lock of a condition, or panics. -/
theorem conditionGive (goes : next (s.cpus c).popOff = (s.cpus c).popOff.setFrames (g :: frames))
    (stack : Based (s.cpus c).point.base (g :: frames))
    (same : g.lock (s.cpus c).proc = f.lock (s.cpus c).proc)
    (owns : g.lock (s.cpus c).proc = none → g.unlocked) :
    Kept c none s (s.release c (.lk k) next) := by
  obtain ⟨-, none⟩ := inv.based top
  obtain ⟨held, off, -⟩ | equal := release_cases s c (.lk k) next
  · refine give inv .none held ?_ (by rw [goes]; rfl) ?_ ?_ ?_ ?_
    · rw [goes]
      exact (inv.cores c).popOff.setFrames stack none owns
    · rw [goes]
      exact Locked.popOff_masked off
    · intro l kernel
      have after : ((s.cpus c).popOff.setFrames (g :: frames)).holds =
          (g.lock (s.cpus c).proc).toList.map .proc := rfl
      have other : l ≠ .lk k := by
        rintro rfl
        cases kernel
      rw [goes, after, same, ← Core.holds_cons top]
      simp [other]
    · rw [goes]
      exact nofun
    · rw [goes]
      exact ready.moveFrames _ live rfl
  · rw [equal]
    exact panic inv ready

omit ready live in
/-- The code on the stack goes on without a lock operation. -/
theorem frameMove (stored : Stored touched s u) (intr : Bool)
    (moved : (u.setCore c { s.cpus c with intr := intr, frames := g :: frames }).Ready)
    (pre : f.unlocked) (stack : Based (s.cpus c).point.base (g :: frames)) (free : g.unlocked)
    (masked : intr = true → (s.cpus c).intr = true ∨ (s.cpus c).noff = 0) :
    Kept c touched s (u.setCore c { s.cpus c with intr := intr, frames := g :: frames }) := by
  obtain ⟨-, none⟩ := inv.based top
  have wf := (inv.cores c).setFrames stack none fun _ => free
  refine move inv stored ⟨wf.proc, wf.stack, wf.busy, wf.owns⟩ rfl masked ?_ nofun moved
  intro l _
  have after : Core.holds { s.cpus c with intr := intr, frames := g :: frames } =
      (g.lock (s.cpus c).proc).toList.map .proc := rfl
  rw [after, g.lock_of_unlocked free, Core.holds_cons top, f.lock_of_unlocked pre]

omit live in
/-- A process that holds its lock stores its new state and calls `sched`. -/
theorem sched (self : (s.cpus c).proc = some p) (called : (SchedPoint.swtched p).base f = false)
    (locks : f.lock (some p) = some p) (suspended : Suspended x.context)
    (stopped : x.state = .runnable ∨ x.state = .sleeping) {back : Bool → Frame m}
    (resumes : ∀ intena, (back intena).resumes) : Kept c (some p) s (s.sched c p x back rest) := by
  have here := inv.swtched top self
  have stack := (inv.based top).1
  rw [here] at stack
  have holds : (s.cpus c).holds = [.proc p] := by
    rw [Core.holds_cons top, self, locks]
    rfl
  have mine : (s.cpus c).point.hand = some p := by
    rw [here]
    rfl
  have still : x.state ≠ .running := by
    obtain state | state := stopped <;> simp [state]
  rw [Machine.sched]
  split
  · rename_i checks
    obtain ⟨held, one, -, -⟩ := checks
    refine ⟨(inv.setProc p _ ?_).move c _ ⟨self, .inl rfl, by simp, by simp⟩ rfl .inl ?_ ?_,
      ready.act mine (.inl rfl) ?_ (by simp) fun running => (still running).elim,
      (Footprint.setProc s c p _).trans (.setCore _ c _)⟩
    · refine ⟨back (s.cpus c).intena, rest, rfl, resumes _, fun p' => ?_⟩
      exact stack.replace fun bottom => by simp [called] at bottom
    · intro l _
      rw [setProc_cpus, holds]
      rfl
    · intro _ k there
      rw [inv.counts c] at one
      have same := occurrences_le_one.mp (Nat.le_of_eq one) _ _ held there
      cases same
    · exact fun _ => .inl (by simpa [SchedPoint.states] using stopped)
  refine ⟨(inv.setProc p x suspended).panic, ready.act mine (.inl mine) ?_ ?_
    fun running => (still running).elim, (Footprint.setProc s c p x).trans (.setCore _ c _)⟩
  · have mineLock : .proc p ∈ (s.cpus c).holds := by
      rw [holds]
      exact List.mem_singleton_self _
    exact fun _ => .inr ⟨rfl, here, mineLock⟩
  · intro p' there
    change (s.cpus c).point = .leaving p' at there
    rw [here] at there
    cases there

omit ready live in
/-- `sched` returns: the process restores `intena` and gives up its lock. -/
theorem resume (stored : Stored touched s u) (same : u.Ready)
    (live : (s.cpus c).panicked = false) (self : (s.cpus c).proc = some p) (resumes : f.resumes)
    (intena : Bool) (stack : Based (s.cpus c).point.base (g :: frames)) (free : g.unlocked) :
    Kept c touched s ((u.setCore c { s.cpus c with intena := intena }).release c (.proc p)
      (Core.setFrames (g :: frames))) := by
  have wf := inv.cores c
  have restored : Kept c touched s (u.setCore c { s.cpus c with intena := intena }) := by
    refine move inv stored ⟨wf.proc, wf.stack, wf.busy, wf.owns⟩ rfl .inl (fun _ _ => Iff.rfl)
      (inv.alone c) ?_
    rw [← stored.cpus] at live ⊢
    exact same.moveFrames _ live rfl
  generalize changed : u.setCore c { s.cpus c with intena := intena } = v at restored ⊢
  have here : v.cpus c = { s.cpus c with intena := intena } := by
    rw [← changed]
    exact update_self c _ _
  have topStill : (v.cpus c).frames = f :: rest := by
    rw [here]
    exact top
  have given : Kept c touched v (v.release c (.proc p) (Core.setFrames (g :: frames))) := by
    refine frameGive restored.locked topStill .none restored.ready ?_ ?_ ?_ free
    · rw [here]
      exact live
    · rw [here, f.lock_of_resumes resumes]
      exact self
    · rw [here]
      exact stack
  exact ⟨given.locked, given.ready, restored.footprint.trans given.footprint⟩

/-- The code that reads `myproc()`. -/
theorem runSelf (self : (s.cpus c).proc = some p) (ran : s.runSelf c p rest f = some t) :
    Kept c (s.touches (.exec c)) s t := by
  obtain ⟨stack, -⟩ := inv.based top
  simp only [touches, top, self]
  cases f with
  | forkret =>
    cases ran
    exact frameGive inv top .none ready live self (stack.replace fun bottom => bottom) rfl
  | sleep => exact frameTake inv ready live top ran rfl rfl self
  | sleepLocked =>
    cases ran
    refine conditionGive inv ready live top rfl (stack.replace ?_) rfl ?_
    · exact fun bottom => bottom
    · exact fun unowned => by simp [Frame.lock, self] at unowned
  | sleepStore =>
    cases ran
    refine sched inv ready top self rfl rfl ?_ (.inr rfl) fun _ => rfl
    exact inv.contexts p
  | sleepResume _ intena =>
    cases ran
    refine resume inv top (.proc ?_) (ready.store ?_) live self rfl intena (stack.replace ?_) ?_
    · rfl
    · exact .inl rfl
    · exact fun bottom => bottom
    · rfl
  | yield => exact frameTake inv ready live top ran rfl rfl self
  | yieldLocked =>
    cases ran
    refine sched inv ready top self rfl rfl ?_ (.inl rfl) fun _ => rfl
    exact inv.contexts p
  | yieldResume intena =>
    cases ran
    obtain ⟨_, _, rfl, below, free⟩ := stack.pop rfl
    exact resume inv top .none ready live self rfl intena below free
  | _ => cases ran

/-- Every step of the code on the stack of a live CPU. -/
theorem run (ran : s.run c f rest = some t) : Kept c (s.touches (.exec c)) s t := by
  obtain ⟨stack, -⟩ := inv.based top
  cases f with
  | kernel => cases ran
  | handler => cases ran
  | sleepReacquire =>
    simp only [touches, top]
    obtain ⟨_, _, rfl, below, free⟩ := stack.pop rfl
    exact conditionTake inv ready live top ran rfl below rfl free
  | wakeup chan p =>
    simp only [touches, top]
    rw [Machine.run] at ran
    split at ran
    · cases ran
      obtain ⟨_, _, next, below, free⟩ := Locked.based_loop (.wakeup chan) p stack rfl fun _ => rfl
      rw [next]
      exact frameMove inv top .none _ (ready.moveFrames _ live rfl) rfl below free .inl
    · exact frameTake inv ready live top ran rfl rfl rfl
  | wakeupLocked chan p =>
    simp only [touches, top]
    cases ran
    obtain ⟨g, frames, next, below, free⟩ :=
      Locked.based_loop (.wakeup chan) p stack rfl fun _ => rfl
    rw [next]
    have wakes : (wakeupProc chan (s.procs p)).context = (s.procs p).context ∧
        ((wakeupProc chan (s.procs p)).state = (s.procs p).state ∨
          (s.procs p).state = .sleeping ∧ (wakeupProc chan (s.procs p)).state = .runnable) := by
      rw [wakeupProc]
      split
      · rename_i asleep
        exact ⟨rfl, .inr ⟨asleep.1, rfl⟩⟩
      · exact ⟨rfl, .inl rfl⟩
    exact frameGive inv top (.proc wakes.1) (ready.store wakes.2) live rfl below free
  | kill =>
    simp only [touches, top]
    exact frameTake inv ready live top ran rfl rfl rfl
  | killLocked pid p =>
    simp only [touches, top]
    rw [Machine.run] at ran
    split at ran
    · cases ran
      obtain ⟨g, _, rfl, below, free⟩ := stack.pop rfl
      have wakes : (Machine.killProc (s.procs p)).state = (s.procs p).state ∨
          (s.procs p).state = .sleeping ∧ (Machine.killProc (s.procs p)).state = .runnable := by
        rw [Machine.killProc]
        split
        · rename_i asleep
          exact .inr ⟨asleep, rfl⟩
        · exact .inl rfl
      exact frameGive inv top (.proc rfl) (ready.store wakes) live rfl below free
    · cases ran
      obtain ⟨_, _, next, below, free⟩ := Locked.based_loop (.kill pid) p stack rfl fun _ => rfl
      rw [next]
      exact frameGive inv top .none ready live rfl below free
  | _ =>
    simp only [Machine.run] at ran
    split at ran
    · cases ran
      exact panic inv ready
    · rename_i self here
      exact runSelf inv ready live top here ran

/-- The calls that processes and handlers have in common. -/
theorem callAny (free : f.unlocked) (call : Call m)
    (called : s.callAny c (f :: rest) call = some t) : Kept c none s t := by
  obtain ⟨stack, -⟩ := inv.based top
  have same : ∀ {core : Core m}, core.frames = f :: rest → core = core.setFrames (f :: rest) := by
    intro _ frames
    rw [Core.setFrames, ← frames]
  cases call with
  | acquire => exact conditionTake inv ready live top called (same top) stack free free
  | release =>
    cases called
    exact conditionGive inv ready live top (same top) stack rfl fun _ => free
  | wakeup =>
    cases called
    exact frameMove inv top .none _ (ready.moveFrames _ live rfl) free (stack.push free _) rfl .inl
  | yield =>
    rw [Machine.callAny] at called
    split at called
    · cases called
    · cases called
      exact frameMove inv top .none _ (ready.moveFrames _ live rfl) free (stack.push free _) rfl .inl
  | clockintr =>
    rw [Machine.callAny] at called
    split at called
    · cases called
      have stored : Stored none s { s with ticks := s.ticks + 1 } := .queues s.pq s.q _
      exact ⟨stored.locked inv, ready.ticks _, stored.footprint⟩
    · cases called
  | _ => cases called

omit ready top in
/-- The interrupt enable bit changes; it is turned on only where no lock is held. -/
theorem setIntr (stored : Stored touched s u) (same : u.Ready)
    (intr : Bool) (masked : intr = true → (s.cpus c).noff = 0) :
    Kept c touched s (u.setCore c { s.cpus c with intr := intr }) := by
  have wf := inv.cores c
  refine move inv stored ⟨wf.proc, wf.stack, wf.busy, wf.owns⟩ rfl (fun on => .inr (masked on))
    (fun _ _ => Iff.rfl) (inv.alone c) ?_
  rw [← stored.cpus] at live ⊢
  exact same.moveFrames _ live rfl

end Stack

section Calls

variable {f : Frame m} {rest : List (Frame m)} (inv : s.Locked) (ready : s.Ready)
  (live : (s.cpus c).panicked = false)

include inv ready live

/-- The calls of a process. -/
theorem callKernel (top : (s.cpus c).frames = .kernel :: rest) (self : (s.cpus c).proc = some p)
    (call : Call m) (called : s.callKernel c p (.kernel :: rest) call = some t) :
    Kept c (s.touches (.call c call)) s t := by
  obtain ⟨stack, -⟩ := inv.based top
  cases call with
  | sleep =>
    cases called
    exact frameMove inv top .none _ (ready.moveFrames _ live rfl) rfl (stack.push rfl _) rfl .inl
  | kill =>
    cases called
    exact frameMove inv top .none _ (ready.moveFrames _ live rfl) rfl (stack.push rfl _) rfl .inl
  | usertrap =>
    simp only [touches, self]
    rw [Machine.callKernel] at called
    split at called
    · dsimp only at called
      split at called
      · cases called
        have here := inv.swtched top self
        have mine : (s.cpus c).point.hand = some p := by
          rw [here]
          rfl
        refine frameMove inv top (.proc ?_) false ?_ rfl (stack.push rfl .yield) rfl (by simp)
        · rfl
        apply ready.act mine
        · exact .inl mine
        · intro _
          refine .inl ?_
          rw [here]
          simp [SchedPoint.states]
        · intro _ there
          rw [here] at there
          cases there
        · simp
      · cases called
        refine setIntr inv live (.proc ?_) (ready.store ?_) false (by simp)
        · rfl
        · exact .inl rfl
    · cases called
  | intrOn =>
    rw [Machine.callKernel] at called
    split at called
    · rename_i zero
      cases called
      exact setIntr inv live .none ready true fun _ => zero
    · cases called
  | usertrapret =>
    cases called
    refine setIntr inv live (.rest ?_ ?_ ?_) (ready.store ?_) false (by simp)
    · rfl
    · rfl
    · rfl
    · exact .inl rfl
  | acquire k => exact callAny inv ready live top rfl (.acquire k) called
  | release k => exact callAny inv ready live top rfl (.release k) called
  | wakeup chan => exact callAny inv ready live top rfl (.wakeup chan) called
  | yield => exact callAny inv ready live top rfl .yield called
  | clockintr => exact callAny inv ready live top rfl .clockintr called
  | iret => exact callAny inv ready live top rfl .iret called

/-- A handler returns to the code that it interrupted. -/
theorem iret (top : (s.cpus c).frames = .handler :: rest) (zero : (s.cpus c).noff = 0) :
    Kept c none s (s.setCore c { s.cpus c with intr := true, frames := rest }) := by
  obtain ⟨stack, locks⟩ := inv.based top
  have wf := inv.cores c
  cases stack with
  | root bottom =>
    have unheld : ∀ k, s.locks (.lk k) ≠ some c := by
      rw [inv.counts c] at zero
      exact fun k => occurrences_eq_zero.mp zero (.lk k)
    refine move inv .none ⟨wf.proc, .inl rfl, ?_, nofun⟩ rfl (fun _ => .inr zero) ?_
      (fun _ => unheld) (ready.moveFrames _ live rfl)
    · intro p there
      rw [there] at bottom
      cases bottom
    intro l _
    have after : Core.holds { s.cpus c with intr := true, frames := [] } =
        ((s.cpus c).point.locks : List (Lock m)) := rfl
    rw [after, locks, Core.holds_cons top]
    rfl
  | call below free =>
    exact frameMove inv top .none true (ready.moveFrames _ live rfl) rfl below free fun _ => .inr zero

/-- A call of the code on top of the stack. -/
theorem call (top : (s.cpus c).frames = f :: rest) (call : Call m)
    (called : s.call c rest f call = some t) : Kept c (s.touches (.call c call)) s t := by
  cases f with
  | kernel =>
    obtain ⟨_, here, called⟩ := Option.bind_eq_some_iff.mp called
    exact callKernel inv ready live top here call called
  | handler =>
    cases call with
    | iret =>
      rw [Machine.call] at called
      split at called
      · rename_i zero
        cases called
        exact iret inv ready live top zero
      · cases called
    | usertrap => cases called
    | sleep chan k => exact callAny inv ready live top rfl (.sleep chan k) called
    | acquire k => exact callAny inv ready live top rfl (.acquire k) called
    | release k => exact callAny inv ready live top rfl (.release k) called
    | wakeup chan => exact callAny inv ready live top rfl (.wakeup chan) called
    | yield => exact callAny inv ready live top rfl .yield called
    | clockintr => exact callAny inv ready live top rfl .clockintr called
    | _ => cases called
  | _ => cases called

/-- A CPU takes an interrupt only while it holds no lock. -/
theorem interrupt (enabled : (s.cpus c).intr = true) :
    Kept c none s (s.setCore c { s.cpus c with
      intr := false, frames := .handler :: (s.cpus c).frames }) := by
  have unheld := inv.free_of_intr enabled
  have wf := inv.cores c
  have none : ∀ l : Lock m, l.inKernel → l ∉ (s.cpus c).holds := by
    intro l kernel mem
    exact unheld l ((inv.exact c l kernel).mpr mem)
  refine move inv .none ?_ rfl nofun ?_ nofun (ready.moveFrames _ live rfl)
  · cases frames : (s.cpus c).frames with
    | nil =>
      have locks : (s.cpus c).point.locks = ([] : List (Lock m)) := by
        apply List.eq_nil_iff_forall_not_mem.mpr
        intro l mem
        apply none l (SchedPoint.inKernel_of_mem_locks mem)
        rw [Core.holds_nil frames]
        exact mem
      have out : (s.cpus c).point.inSwtch = false := by
        cases here : (s.cpus c).point with
        | swtched p => exact (wf.busy p here frames).elim
        | _ => rfl
      have moved := wf.setFrames (.root (by rw [SchedPoint.base, out]; rfl)) locks
        fun _ => (rfl : (Frame.handler : Frame m).unlocked = true)
      exact ⟨moved.proc, moved.stack, moved.busy, moved.owns⟩
    | cons f rest =>
      obtain ⟨stack, locks⟩ := inv.based frames
      have free : f.unlocked := by
        apply wf.owns f rest frames
        cases held : f.lock (s.cpus c).proc with
        | none => rfl
        | some p =>
          refine (none (.proc p) rfl ?_).elim
          rw [Core.holds_cons frames, held]
          exact List.mem_singleton_self _
      have moved := wf.setFrames (stack.push free .handler) locks fun _ => rfl
      exact ⟨moved.proc, moved.stack, moved.busy, moved.owns⟩
  intro l kernel
  constructor
  · intro absurd
    cases absurd
  · intro mem
    exact (none l kernel mem).elim

end Calls

/-- Every step keeps the invariants and its footprint. -/
theorem step (inv : s.Locked) (ready : s.Ready) {act : Action n m}
    (ran : s.step act = some t) : Kept act.cpu (s.touches act) s t := by
  rw [Machine.step] at ran
  split at ran
  · cases ran
  rename_i running
  have live : (s.cpus act.cpu).panicked = false := by simpa using running
  cases act with
  | exec c =>
    rw [perform] at ran
    split at ran
    · rename_i empty
      exact scheduler inv ready live empty rfl ran
    · rename_i top
      exact run inv ready live top ran
  | call c call =>
    rw [perform] at ran
    split at ran
    · cases ran
    · rename_i top
      exact Kept.call inv ready live top call ran
  | interrupt c =>
    rw [perform] at ran
    split at ran
    · rename_i enabled
      cases ran
      exact interrupt inv ready live enabled
    · cases ran

end Kept

end Smp

end CustomXv6

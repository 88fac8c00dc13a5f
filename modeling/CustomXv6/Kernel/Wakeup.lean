/-
Module: CustomXv6.Kernel.Wakeup
Purpose: No wakeup is lost, on any number of CPUs and in every interleaving.
Trusted boundary: none
Main exports: Smp.no_lost_wakeup
-/
import CustomXv6.Kernel.SmpSteps

namespace CustomXv6

open Function
open Counting Transition

namespace Smp

variable {n m : Nat}

/-! ### A process that waits -/

namespace Machine

variable {s t : Machine n m} {c d : Fin n} {p : ProcId} {chan : Chan} {k : Fin m}
  {act : Action n m}

theorem live_of_step (ran : s.step act = some t) : (s.cpus act.cpu).panicked = false := by
  rw [step] at ran
  split at ran
  · cases ran
  · rename_i running
    simpa using running

theorem perform_of_step (ran : s.step act = some t) : s.perform act = some t := by
  rw [step] at ran
  split at ran
  · cases ran
  · exact ran

structure Asleep (s : Machine n m) (p : ProcId) (chan : Chan) : Prop where
  state : (s.procs p).state = .sleeping
  chan : (s.procs p).chan = some chan

/-- A CPU that lives does not run a process that is asleep. -/
theorem Ready.not_swtched (ready : s.Ready) (asleep : s.Asleep p chan)
    (live : (s.cpus c).panicked = false) : (s.cpus c).point ≠ .swtched p := by
  intro here
  have listed := ready.state_of_hand live here rfl
  rw [asleep.state] at listed
  simp [SchedPoint.states] at listed

/-- Only the critical section of a `wakeup` or a `kill` ends the sleep. -/
theorem Asleep.step (asleep : s.Asleep p chan) (ready : s.Ready) (inv : s.Locked)
    (ran : s.step act = some t) (still : s.wakes act ≠ some p) : t.Asleep p chan := by
  by_cases touched : s.touches act = some p
  · have live := live_of_step ran
    have did := perform_of_step ran
    have notRunning := ready.not_swtched asleep live
    have notSelf : ∀ {f rest}, (s.cpus act.cpu).frames = f :: rest →
        (s.cpus act.cpu).proc ≠ some p := fun top self => notRunning (inv.swtched top self)
    have hand : ∀ {point : SchedPoint}, (s.cpus act.cpu).point = point →
        point.hand = some p → .sleeping ∈ point.states := by
      intro _ here inHand
      rw [← asleep.state]
      exact ready.state_of_hand live here inHand
    cases act with
    | exec c =>
      simp only [touches] at touched
      cases frames : (s.cpus c).frames with
      | nil =>
        simp only [perform, frames] at did
        simp only [frames] at touched
        cases here : (s.cpus c).point with
        | choosing =>
          simp only [here, Option.some.injEq] at touched
          subst touched
          have listed := hand here rfl
          simp [SchedPoint.states] at listed
        | testing =>
          simp only [here, Option.some.injEq] at touched
          subst touched
          have listed := hand here rfl
          simp [SchedPoint.states] at listed
        | dispatching =>
          simp only [here, Option.some.injEq] at touched
          subst touched
          have listed := hand here rfl
          simp [SchedPoint.states] at listed
        | returned p' =>
          simp only [here, Option.some.injEq] at touched
          subst touched
          rw [here] at did
          cases did
          -- The tests of deadline and quota are for runnable processes only.
          have kept : (s.limits p').1.state = .sleeping ∧
              (s.limits p').1.chan = some chan := by
            simp [limits, asleep.state, asleep.chan]
          constructor
          · simpa using kept.1
          · simpa using kept.2
        | leaving =>
          simp only [here, Option.some.injEq] at touched
          subst touched
          rw [here] at did
          cases did
          constructor
          · simp [asleep.state]
          · simp [asleep.state, asleep.chan]
        | _ => simp [here] at touched
      | cons f =>
        simp only [frames] at touched
        simp only [perform, frames] at did
        cases f with
        | sleepStore => exact (notSelf frames touched).elim
        | sleepResume => exact (notSelf frames touched).elim
        | yieldLocked => exact (notSelf frames touched).elim
        | wakeupLocked chan' =>
          cases touched
          cases did
          have other : ¬ ((s.procs p).state = .sleeping ∧ (s.procs p).chan = some chan') := by
            intro found
            simp [wakes, frames, found] at still
          rw [wakeupProc, if_neg other]
          constructor
          · simpa using asleep.state
          · simpa using asleep.chan
        | killLocked pid =>
          cases touched
          have other : (s.procs p).pid ≠ pid := by
            intro found
            simp [wakes, frames, found, asleep.state] at still
          rw [run, if_neg other] at did
          cases did
          constructor
          · simpa using asleep.state
          · simpa using asleep.chan
        | _ => cases touched
    | call c call =>
      cases call with
      | usertrap =>
        cases frames : (s.cpus c).frames with
        | nil => simp [perform, frames] at did
        | cons => exact (notSelf frames touched).elim
      | _ => cases touched
    | interrupt => cases touched
  · obtain ⟨state, channel⟩ := (Kept.step inv ready ran).footprint.procs p touched
    exact ⟨state.trans asleep.state, channel.trans asleep.chan⟩

/-- The process has given up the lock of its condition in `sleep(chan, lk)` and has not
been woken since: it is about to store its new state, or asleep. -/
def Waiting (s : Machine n m) (p : ProcId) (chan : Chan) : Prop :=
  (∃ c k rest, (s.cpus c).point = .swtched p ∧ (s.cpus c).frames = .sleepStore chan k :: rest) ∨
    s.Asleep p chan

theorem Waiting.step (waiting : s.Waiting p chan) (ready : s.Ready) (inv : s.Locked)
    (ran : s.step act = some t) (still : s.wakes act ≠ some p) : t.Waiting p chan := by
  obtain ⟨c, k, rest, here, top⟩ | asleep := waiting
  · by_cases mine : c = act.cpu
    · have did := perform_of_step ran
      have self : (s.cpus c).proc = some p := by
        rw [(inv.cores c).proc, here]
        rfl
      cases act with
      | exec c' =>
        obtain rfl : c = c' := mine
        simp only [perform, top, Machine.run, self] at did
        cases did
        right
        rw [Machine.sched]
        split
        · exact ⟨by simp, by simp⟩
        · exact ⟨by simp [Machine.panic], by simp [Machine.panic]⟩
      | call c' =>
        obtain rfl : c = c' := mine
        simp [perform, top, Machine.call] at did
      | interrupt c' =>
        obtain rfl : c = _ := mine
        -- The process holds its lock, so interrupts are off.
        simp only [perform] at did
        split at did
        · rename_i enabled
          have held : s.locks (.proc p) = some c := by
            rw [inv.exact c _ rfl, Core.holds_cons top, self]
            exact List.mem_singleton_self _
          exact (inv.free_of_intr enabled _ held).elim
        · cases did
    have same := (Kept.step inv ready ran).footprint.cpus c mine
    left
    refine ⟨c, k, rest, ?_, ?_⟩
    · rw [same]
      exact here
    · rw [same]
      exact top
  · exact .inr (asleep.step ready inv ran still)

variable {i : ProcId} {rest : List (Frame m)}

/-- A live CPU in `wakeup(chan)` has another process than the one that waits. -/
theorem Waiting.not_self (waiting : s.Waiting p chan) (ready : s.Ready) (inv : s.Locked)
    (live : (s.cpus d).panicked = false) (top : (s.cpus d).frames = .wakeup chan i :: rest) :
    (s.cpus d).proc ≠ some p := by
  intro self
  have here := inv.swtched top self
  obtain ⟨c, _, _, there, stores⟩ | asleep := waiting
  · obtain rfl := ready.handUnique d c p (by rw [here]; rfl) (by rw [there]; rfl)
    rw [top] at stores
    cases stores
  · exact ready.not_swtched asleep live here

/-- Where `wakeup(chan)` has the lock of the process that waits, the process is asleep. -/
theorem Waiting.asleep (waiting : s.Waiting p chan) (inv : s.Locked)
    (top : (s.cpus d).frames = .wakeupLocked chan p :: rest) : s.Asleep p chan := by
  obtain ⟨c, _, _, there, stores⟩ | asleep := waiting
  · have mine : Lock.proc p ∈ (s.cpus d).holds := by
      rw [Core.holds_cons top]
      exact List.mem_singleton_self _
    have other : Lock.proc p ∈ (s.cpus c).holds := by
      rw [Core.holds_cons stores, (inv.cores c).proc, there]
      exact List.mem_singleton_self _
    obtain rfl := inv.exclusive rfl mine other
    rw [top] at stores
    cases stores
  · exact asleep

/-- CPU `d`, which holds the lock of the condition, is in a call of `wakeup(chan)` that has
not gone past process `p`. -/
structure InWakeup (s : Machine n m) (d : Fin n) (chan : Chan) (k : Fin m) (p : ProcId) :
    Prop where
  held : s.locks (.lk k) = some d
  lt : ∃ i rest, i ≤ p ∧ ((s.cpus d).frames = .wakeup chan i :: rest ∨
    (s.cpus d).frames = .wakeupLocked chan i :: rest)

/-- The loop goes on to an entry that is not past `p` either. -/
theorem loop_before (pre : i < p) (rest : List (Frame m)) :
    ∃ i', i' ≤ p ∧ loop (.wakeup chan) i rest = .wakeup chan i' :: rest := by
  have lt : i.val + 1 < nproc := Nat.lt_of_le_of_lt pre p.isLt
  refine ⟨⟨i.val + 1, lt⟩, pre, ?_⟩
  rw [loop, nextSlot, dif_pos lt]

/-- A call of `wakeup(chan)` starts with the first entry. -/
theorem inWakeup_of_call (held : s.locks (.lk k) = some d)
    (called : s.step (.call d (.wakeup chan)) = some t) : t.InWakeup d chan k p := by
  have did := perform_of_step called
  have starts : ∀ frames, s.callAny d frames (.wakeup chan) = some t →
      t.InWakeup d chan k p := by
    intro frames begun
    cases begun
    exact ⟨held, 0, frames, Fin.zero_le p, .inl (by simp [Core.setFrames])⟩
  simp only [perform] at did
  split at did
  · cases did
  rename_i frame rest _
  cases frame with
  | kernel =>
    obtain ⟨_, -, begun⟩ := Option.bind_eq_some_iff.mp did
    exact starts _ begun
  | handler => exact starts _ did
  | _ => cases did

theorem InWakeup.step (call : s.InWakeup d chan k p) (waiting : s.Waiting p chan)
    (ready : s.Ready) (inv : s.Locked) (ran : s.step act = some t)
    (still : s.wakes act ≠ some p) : t.InWakeup d chan k p := by
  obtain ⟨held, i, rest, pre, lt⟩ := call
  by_cases mine : d = act.cpu
  · have live := live_of_step ran
    have did := perform_of_step ran
    cases act with
    | exec d' =>
      obtain rfl : d = d' := mine
      obtain top | top := lt
      · simp only [perform, top, run] at did
        split at did
        · rename_i self
          cases did
          -- The process that is skipped is not the one that waits.
          have ne : i ≠ p := by
            rintro rfl
            exact waiting.not_self ready inv live top self
          obtain ⟨i', before', next⟩ := loop_before (lt_of_le_of_ne pre ne) rest
          exact ⟨held, i', rest, before', .inl (by simpa [Core.setFrames] using next)⟩
        · obtain ⟨_, rfl⟩ | rfl := acquire_cases did
          · exact ⟨by simpa using held, i, rest, pre, .inr (by simp [Core.setFrames])⟩
          · exact ⟨held, i, rest, pre, .inl (by simpa [panic] using top)⟩
      have ne : i ≠ p := by
        rintro rfl
        have asleep := waiting.asleep inv top
        simp [wakes, top, asleep.state, asleep.chan] at still
      simp only [perform, top, run] at did
      cases did
      have lockHeld : s.locks (.proc i) = some d := by
        rw [inv.exact d _ rfl, Core.holds_cons top]
        exact List.mem_singleton_self _
      rw [inv.release_eq lockHeld (t := s.setProc i _) rfl rfl]
      obtain ⟨i', before', next⟩ := loop_before (lt_of_le_of_ne pre ne) rest
      exact ⟨by simpa using held, i', rest, before', .inl (by simpa [Core.setFrames] using next)⟩
    | call d' =>
      obtain rfl : d = d' := mine
      obtain top | top := lt <;> simp [perform, top, Machine.call] at did
    | interrupt d' =>
      obtain rfl : d = _ := mine
      simp only [perform] at did
      split at did
      · rename_i enabled
        exact (inv.free_of_intr enabled _ held).elim
      · cases did
  · have footprint := (Kept.step inv ready ran).footprint
    refine ⟨footprint.locks _ d mine held, i, rest, pre, ?_⟩
    rw [footprint.cpus d mine]
    exact lt

end Machine

/-! ### Runs -/

/-- Both invariants hold in every state of every run. -/
theorem reached_inv {s₀ s : Machine n m} (starts : s₀.Starts)
    (run : Run Machine.step (fun _ _ => True) s₀ s) : s.Locked ∧ s.Ready := by
  induction run with
  | refl => exact ⟨starts.locked, starts.ready⟩
  | tail _ _ ran ih =>
    obtain ⟨inv, ready⟩ := ih
    have kept := Kept.step inv ready ran
    exact ⟨kept.locked, kept.ready⟩

/-- Whatever the CPUs do, interleaved at every `acquire` and `release`: a CPU counts the locks
it holds in `noff`, and takes no interrupt while it holds one. -/
theorem locks_counted {s₀ s : Machine n m} (starts : s₀.Starts)
    (run : Run Machine.step (fun _ _ => True) s₀ s) (c : Fin n) :
    (s.cpus c).noff = occurrences s.locks (some c) ∧
      ((∃ lock, s.locks lock = some c) → (s.cpus c).intr = false) := by
  obtain ⟨inv, -⟩ := reached_inv starts run
  refine ⟨inv.counts c, fun held => inv.masked c ?_⟩
  rw [inv.counts c]
  exact occurrences_pos.mpr held

/-- In the same runs a process is in one place: once in the heap, `RUNNABLE`, or once in the
quota queue, `PASSED_QUOTA`, or in the hand of one CPU. -/
theorem processes_in_one_place {s₀ s : Machine n m} (starts : s₀.Starts)
    (run : Run Machine.step (fun _ _ => True) s₀ s) :
    s.pq.procs.Nodup ∧ s.q.toList.Nodup ∧
    (∀ p ∈ s.pq.procs, (s.procs p).state = .runnable ∧ ∀ c, (s.cpus c).point.hand ≠ some p) ∧
    (∀ p ∈ s.q.toList, (s.procs p).state = .passedQuota ∧ ∀ c, (s.cpus c).point.hand ≠ some p) ∧
    ∀ c d p, (s.cpus c).point.hand = some p → (s.cpus d).point.hand = some p → c = d := by
  obtain ⟨-, ready⟩ := reached_inv starts run
  exact ⟨ready.heapNodup, ready.queueNodup,
    fun p inHeap => ⟨ready.heap p inHeap, ready.heapHand p inHeap⟩,
    fun p inQueue => ⟨ready.queue p inQueue, ready.queueHand p inQueue⟩, ready.handUnique⟩

/-- As long as no `wakeup` and no `kill` makes the process runnable, it waits. -/
theorem waiting_since {s₀ s t : Machine n m} {p : ProcId} {chan : Chan} (starts : s₀.Starts)
    (reached : Run Machine.step (fun _ _ => True) s₀ s) (waiting : s.Waiting p chan)
    (since : Run Machine.step (fun u act => u.wakes act ≠ some p) s t) :
    Run Machine.step (fun _ _ => True) s₀ t ∧ t.Waiting p chan := by
  induction since with
  | refl => exact ⟨reached, waiting⟩
  | tail _ still ran ih =>
    obtain ⟨run, waiting⟩ := ih
    obtain ⟨inv, ready⟩ := reached_inv starts run
    exact ⟨run.tail trivial ran, waiting.step ready inv ran still⟩

/-- No wakeup is lost.  CPU `c` runs process `p`, which has called `sleep(chan, lk)` and gives
up `lk` in the step from `s` to `s'`; up to `t` no `wakeup` or `kill` has made `p` runnable.
Then a `wakeup(chan)` does not skip `p` as `myproc()`, finds it asleep once it has its lock and
makes it runnable; and one by a CPU that now holds `lk` does not get past `p` before that. -/
theorem no_lost_wakeup {s₀ s s' t : Machine n m} {c : Fin n} {p : ProcId} {chan : Chan}
    {k : Fin m} {rest : List (Frame m)} (starts : s₀.Starts)
    (reached : Run Machine.step (fun _ _ => True) s₀ s) (runs : (s.cpus c).point = .swtched p)
    (sleeps : (s.cpus c).frames = .sleepLocked chan k :: rest)
    (holds : s.locks (.lk k) = some c) (freed : s.step (.exec c) = some s')
    (since : Run Machine.step (fun u act => u.wakes act ≠ some p) s' t) :
    (∀ d rest, (t.cpus d).panicked = false → (t.cpus d).frames = .wakeup chan p :: rest →
      (t.cpus d).proc ≠ some p) ∧
    (∀ d rest, (t.cpus d).panicked = false → (t.cpus d).frames = .wakeupLocked chan p :: rest →
      (t.procs p).state = .sleeping ∧ (t.procs p).chan = some chan ∧
        ∃ u, t.step (.exec d) = some u ∧ (u.procs p).state = .runnable) ∧
    (∀ d u v, t.locks (.lk k) = some d → t.step (.call d (.wakeup chan)) = some u →
      Run Machine.step (fun u act => u.wakes act ≠ some p) u v →
        v.InWakeup d chan k p) := by
  have waiting : s'.Waiting p chan := by
    obtain ⟨inv, -⟩ := reached_inv starts reached
    have did := Machine.perform_of_step freed
    have self : (s.cpus c).proc = some p := by
      rw [(inv.cores c).proc, runs]
      rfl
    simp only [Machine.perform, sleeps, Machine.run, self, Machine.runSelf] at did
    cases did
    rw [inv.release_eq holds rfl rfl]
    exact .inl ⟨c, k, rest, by simpa [Core.setFrames, Core.popOff] using runs,
      by simp [Core.setFrames]⟩
  obtain ⟨run, waiting⟩ := waiting_since starts (reached.tail trivial freed) waiting since
  obtain ⟨inv, ready⟩ := reached_inv starts run
  refine ⟨?_, ?_, ?_⟩
  · intro d rest live top
    exact waiting.not_self ready inv live top
  · intro d _ live top
    have asleep := waiting.asleep inv top
    refine ⟨asleep.state, asleep.chan, ?_⟩
    have held : t.locks (.proc p) = some d := by
      rw [inv.exact d _ rfl, Core.holds_cons top]
      exact List.mem_singleton_self _
    refine ⟨_, by simp [Machine.step, Action.cpu, live, Machine.perform, top, Machine.run]; rfl, ?_⟩
    simp [Machine.wakeupProc, asleep.state, asleep.chan]
  intro d u v held called after
  have stillRun : Run Machine.step (fun u act => u.wakes act ≠ some p) t u :=
    .single (by simp [Machine.wakes]) called
  have lt : u.InWakeup d chan k p := Machine.inWakeup_of_call held called
  induction after with
  | refl => exact lt
  | tail pre still ran ih =>
    obtain ⟨run', waiting'⟩ := waiting_since starts run waiting (stillRun.trans pre)
    obtain ⟨inv', ready'⟩ := reached_inv starts run'
    exact ih.step waiting' ready' inv' ran still

def onePair : Machine 2 1 where
  locks := fun _ => none
  cpus := fun _ =>
    { proc := none, noff := 0, intena := false, intr := true, panicked := false
      point := .scan 0, frames := [] }
  procs := fun p =>
    { state := if p = 0 then .runnable else .unused, chan := none, killed := false, pid := 0
      usage := CpuUsage.fresh, context := [.forkret] }
  pq := pqInit
  q := initializeQueue
  ticks := 0

theorem onePair_starts : onePair.Starts := by
  refine ⟨fun _ => rfl, fun _ => rfl, rfl, rfl, fun p => ?_, fun _ => rfl⟩
  simp only [onePair]
  split <;> simp

/-- CPU 0 scans the first process. -/
theorem locks_counted_onePair :
    ∃ s : Machine 2 1, s.locks .pq = some 0 ∧ occurrences s.locks (some 0) = 2 := by
  have run := run_of_runFrom
    (show runFrom Machine.step onePair [.exec 0, .exec 0] = some _ from rfl)
  exact ⟨_, by decide, (locks_counted onePair_starts run 0).1.symm⟩

theorem processes_in_one_place_onePair :
    ∃ s : Machine 2 1, 0 ∈ s.pq.procs ∧ (s.procs 0).state = .runnable := by
  obtain ⟨s, run, inHeap⟩ := exists_run_of_runFrom Machine.step onePair
    [.exec 0, .exec 0, .exec 0] (P := (0 ∈ ·.pq.procs)) (by decide +kernel)
  exact ⟨s, inHeap, ((processes_in_one_place onePair_starts run).2.2.1 0 inHeap).1⟩

/-- CPU `c` dispatches the process, which takes the lock of its condition and calls
`sleep`. -/
def goesToSleep (c : Fin n) (k : Fin m) : List (Action n m) :=
  List.replicate 266 (.exec c) ++ [.call c (.acquire k), .call c (.sleep .ticks k), .exec c]

/-- CPU `c` finishes the switch; then a handler on CPU `d` takes the lock of the condition and
calls `wakeup`. -/
def isWoken (c d : Fin n) (k : Fin m) : List (Action n m) :=
  [.exec c, .exec c, .exec c, .interrupt d, .call d (.acquire k), .call d (.wakeup .ticks), .exec d]

theorem no_lost_wakeup_handler :
    ∃ t : Machine 2 1, (t.cpus 1).frames = [.wakeupLocked .ticks 0, .handler] ∧
      (t.procs 0).state = .sleeping ∧
        ∃ u, t.step (.exec 1) = some u ∧ (u.procs 0).state = .runnable := by
  have tested : (runFrom Machine.step onePair (goesToSleep 0 0)).any (fun s =>
      decide ((s.cpus 0).point = .swtched 0 ∧
        (s.cpus 0).frames = [.sleepLocked .ticks 0, .kernel] ∧ s.locks (.lk 0) = some 0) &&
      (s.step (.exec 0)).any fun s' =>
        (runChecked Machine.step (fun u act => u.wakes act ≠ some 0) s' (isWoken 0 1 0)).any fun t =>
          decide ((t.cpus 1).panicked = false ∧
            (t.cpus 1).frames = [.wakeupLocked .ticks 0, .handler])) = true := by
    decide +kernel
  obtain ⟨_, executed, both⟩ := (Option.any_eq_true _ _).mp tested
  rw [Bool.and_eq_true, decide_eq_true_eq] at both
  obtain ⟨⟨runs, sleeps, holds⟩, rest⟩ := both
  obtain ⟨s', freed, later⟩ := (Option.any_eq_true _ _).mp rest
  obtain ⟨t, since, found⟩ := (Option.any_eq_true _ _).mp later
  obtain ⟨live, top⟩ := of_decide_eq_true found
  have run : Run Machine.step (fun u act => u.wakes act ≠ some 0) s' t := run_of_runChecked since
  obtain ⟨-, finds, -⟩ := no_lost_wakeup onePair_starts (run_of_runFrom executed) runs sleeps holds
    freed run
  obtain ⟨asleep, -, wakes⟩ := finds 1 _ live top
  exact ⟨t, top, asleep, wakes⟩

end Smp

end CustomXv6

/-
Module: CustomXv6.Kernel.Limits
Purpose: The deadline and the quota at dispatch.
Trusted boundary: none
Main exports: dispatch_inTime, quota_enforced
-/
import CustomXv6.Kernel.Frame

namespace CustomXv6

open Transition
open Function

variable {n : Nat}
variable {s s' : Kernel n} {act : Action n} {c : Fin n} {x y : Proc} {p : ProcId}

/-! ### The deadline -/

/-!
`scheduler` compares `ticks` with the deadline of a process when it pops it from the heap and
when it comes back from `swtch` with a `RUNNABLE` process.  A process that is parked in the
quota queue is later taken from there without another look at its deadline.
-/

theorem Proc.expired_of_key (key : y.key = x.key) (ticks : UInt32) :
    y.expired ticks = x.expired ticks := by
  have expiredKey : ∀ z : Proc,
      z.expired ticks = z.key.any fun entry => decide (entry.2 ≤ ticks) := by
    intro z
    rw [Proc.expired, Proc.key]
    cases z.usageTime <;> rfl
  rw [expiredKey, expiredKey, key]

variable {ticks : UInt32} {src : Source}

theorem Proc.deadline_of_not_expired (has : x.usageTime ≠ none) (inTime : x.expired ticks = false) :
    ∃ usage, x.usageTime = some usage ∧ ticks < usage.deadline := by
  obtain ⟨usage, usageEq⟩ := Option.ne_none_iff_exists'.mp has
  refine ⟨usage, usageEq, ?_⟩
  rw [Proc.expired, usageEq, Option.any_some, decide_eq_false_iff_not] at inTime
  exact UInt32.not_le.mp inTime

/-- A timer tick reaches the deadline of a process that is parked in the quota
queue. -/
def Kernel.expiresParked (s : Kernel n) (act : Action n) : Bool :=
  act.isTimer &&
    decide (∃ p, (s.procs p).state = .passedQuota ∧ (s.procs p).expired (s.ticks + 1))

def Kernel.ParkedInTime (s : Kernel n) : Prop :=
  ∀ p, (s.procs p).state = .passedQuota → (s.procs p).expired s.ticks = false

theorem boot_parkedInTime : (boot n).ParkedInTime := by
  intro p passed
  simp only [boot] at passed
  split at passed <;> cases passed

/-- A process that does not change keeps its deadline ahead, unless the tick
reaches it. -/
theorem Kernel.ParkedInTime.unchanged (parked : s.ParkedInTime)
    (inTime : s.expiresParked act = false) (ran : s.step act = some s')
    (passed : (s.procs p).state = .passedQuota) : (s.procs p).expired s'.ticks = false := by
  cases timer : act.isTimer with
  | true =>
    rw [step_timer ran timer]
    simp only [Kernel.expiresParked, timer, Bool.true_and, decide_eq_false_iff_not, not_exists,
      not_and, Bool.not_eq_true] at inTime
    exact inTime p passed
  | false =>
    rw [step_ticks ran timer]
    exact parked p passed

theorem Kernel.Inv.parkedInTime_step (inv : s.Inv) (parked : s.ParkedInTime)
    (inTime : s.expiresParked act = false) (ran : s.step act = some s') :
    s'.ParkedInTime := by
  intro p passed
  have changed := inv.step_change ran p
  have still := parked.unchanged (p := p) inTime ran
  have ticks := step_ticks ran
  generalize s'.procs p = y at changed passed ⊢
  cases changed with
  | idles _ state _ usage =>
    rw [Proc.expired, usage]
    exact still (state ▸ passed)
  | wakes _ _ state => cases passed.symm.trans state
  | readies _ _ _ readied => cases passed.symm.trans readied.facts.1
  | taken => cases passed
  | freed => cases passed
  | stores _ _ _ _ _ has state _ stored =>
    have pre := still (state ▸ passed)
    rw [Proc.expired, has] at pre
    rw [Proc.expired, stored]
    exact pre
  | drops => cases passed
  | chooses => cases passed
  | enters _ _ _ state => cases passed.symm.trans state
  | rests _ _ _ state => cases passed.symm.trans state
  | own _ runs state pre =>
    have running := inv.fits_running (exec_running runs).1 pre
    cases (state.trans running).symm.trans passed
  | expired => cases passed
  | gives x _ _ stopped _ _ _ fixed =>
    -- The process has just been parked, after the deadline test.
    obtain ⟨charged, _, lim, after⟩ := fixed.usage
    rw [passed] at lim
    obtain ⟨final, finalEq, limits⟩ := Option.map_eq_some_iff.mp after
    have deadline : final.deadline = charged.deadline := (Prod.mk.inj (Prod.mk.inj limits).2).2
    have early : ¬ charged.deadline ≤ s.ticks := by
      generalize x.state = pre at lim stopped
      cases lim with
      | overQuota early => exact early
      | untested =>
        rcases stopped with never | ⟨never, _⟩ | ⟨never, _⟩ <;> cases never
    rw [Proc.expired, finalEq, Option.any_some, deadline, ticks rfl]
    exact decide_eq_false early

/-- Where the scheduler of a CPU can be after a step. -/
inductive PcAfter (s s' : Kernel n) (c : Fin n) : SchedPc → Prop where
  | free (pc : SchedPc) (handsFree : pc.handsFree) (emptied : pc = .popQ → s.pq.size = 0) :
      PcAfter s s' c pc
  | chosePq (p : ProcId) (inTime : (s'.procs p).expired s'.ticks = false) :
      PcAfter s s' c (.chosen p .pq)
  | choseQ (p : ProcId) (popping : (s.cpus c).pc = .popQ) : PcAfter s s' c (.chosen p .q)
  | switched (t : Option ThreadId) : PcAfter s s' c (.swtched t)

theorem schedStep_pc (step : SchedStep s c s') : PcAfter s s' c (s'.cpus c).pc := by
  cases step with
  | moves pc _ _ after emptied =>
    rw [Kernel.setPc, Kernel.setCpu_cpus, update_self]
    exact .free pc after emptied
  | pushes _ _ _ _ _ _ _ after =>
    rw [Kernel.setPc, Kernel.setCpu_cpus, update_self]
    rcases after with ⟨_, rfl⟩ | rfl
    · exact .free _ rfl (by simp)
    · exact .free _ rfl (by simp)
  | drops _ _ _ popping =>
    rw [Kernel.setProc_cpus, popping]
    exact .free _ rfl (by simp)
  | chooses p _ _ _ _ has early =>
    rw [Kernel.setPc, Kernel.setCpu_cpus, update_self]
    refine .chosePq p ?_
    simpa [Proc.expired, Kernel.setPc, has] using UInt32.not_le.mp early
  | unparks p _ popping =>
    rw [Kernel.setPc, Kernel.setCpu_cpus, update_self]
    exact .choseQ p popping
  | enters _ _ t =>
    rw [Kernel.setCpu_cpus, update_self]
    exact .switched t
  | rests =>
    rw [Kernel.setCpu_cpus, update_self]
    exact .free _ rfl (by simp)
  | faults =>
    rw [Kernel.setCpu_cpus, update_self]
    exact .free _ rfl (by simp)
  | stops =>
    rw [Kernel.panic, Kernel.setPc, Kernel.setCpu_cpus, update_self]
    exact .free _ rfl (by simp)

theorem step_pc (ran : s.step act = some s') (c : Fin n) :
    (s'.cpus c).pc = (s.cpus c).pc ∨ PcAfter s s' c (s'.cpus c).pc := by
  rcases step_cpus ran c with same | ⟨_, step⟩ | freed
  · exact .inl (by rw [same])
  · exact .inr (schedStep_pc step)
  refine .inr ?_
  generalize s'.cpus c = cpu at freed
  cases freed with
  | left => exact .free _ rfl (by simp)
  | reentered => exact .switched _
  | stopped => exact .free _ rfl (by simp)

/-- A CPU takes a process into its hands from the heap only after the deadline
test. -/
theorem step_chosen_pq (ran : s.step act = some s') (chosen : (s'.cpus c).pc = .chosen p .pq)
    : (s.cpus c).pc = .chosen p .pq ∨ (s'.procs p).expired s'.ticks = false := by
  rcases step_pc ran c with same | after
  · exact .inl (same ▸ chosen)
  rw [chosen] at after
  cases after with
  | free _ handsFree => cases handsFree
  | chosePq _ inTime => exact .inr inTime

/-- A process in the hands of a CPU keeps its heap key. -/
theorem Kernel.Inv.chosen_key (inv : s.Inv) (chosen : (s.cpus c).pc = .chosen p src)
    (ran : s.step act = some s') : (s'.procs p).key = (s.procs p).key := by
  have inHand : s.At p (.chosen c src) := chosen
  refine inv.step_key ran (inv.fits p _ inHand).not_off fun c' running => ?_
  cases inv.unique p (.chosen c src) (.cpu c') inHand running

/-- What a pass keeps as long as the clock stands still. -/
structure Kernel.PassInTime (s : Kernel n) (c : Fin n) : Prop where
  inv : s.Inv
  parked : s.ParkedInTime
  chosen : ∀ p, (s.cpus c).pc = .chosen p .pq → (s.procs p).expired s.ticks = false

theorem Kernel.PassInTime.step (pass : s.PassInTime c) (leaves : s.reenters act = false)
    (noTimer : act.isTimer = false) (ran : s.step act = some s') : s'.PassInTime c := by
  have inTime : s.expiresParked act = false := by rw [Kernel.expiresParked, noTimer]; rfl
  refine ⟨pass.inv.step leaves ran, pass.inv.parkedInTime_step pass.parked inTime ran,
    fun p chosen => ?_⟩
  rcases step_chosen_pq ran chosen with pre | after
  · rw [step_ticks ran noTimer, Proc.expired_of_key (pass.inv.chosen_key pre ran)]
    exact pass.chosen p pre
  · exact after

theorem Kernel.PassInTime.not_expired (pass : s.PassInTime c)
    (chosen : (s.cpus c).pc = .chosen p src) : (s.procs p).expired s.ticks = false := by
  cases src with
  | pq => exact pass.chosen p chosen
  | q => exact pass.parked p (pass.inv.fits p (.chosen c .q) chosen)

/-- Deadline enforcement at dispatch.  In any run in which the thread loop never goes on to a
second thread and no tick reaches the deadline of a parked process, the process that a pass
selects while the clock stands still has its deadline ahead when it is switched to. -/
theorem dispatch_inTime (n : Nat) (s s' : Kernel n) (c : Fin n) (p : ProcId) (src : Source)
    (run : Run Kernel.step
      (fun s act => s.reenters act = false ∧ s.expiresParked act = false) (boot n) s)
    (starts : (s.cpus c).pc = .scan 0) (pass : Run Kernel.step
      (fun s act => s.reenters act = false ∧ act.isTimer = false) s s')
    (selects : (s'.cpus c).pc = .chosen p src) :
    (∃ usage, (s'.procs p).usageTime = some usage ∧ s'.ticks < usage.deadline) ∧
      ∀ s'', s'.step (.scheduler c) = some s'' →
        ∃ usage, (s''.procs p).usageTime = some usage ∧ s''.ticks < usage.deadline := by
  obtain ⟨inv, parked⟩ : s.Inv ∧ s.ParkedInTime :=
    run.invariant (P := fun s => s.Inv ∧ s.ParkedInTime) ⟨boot_inv, boot_parkedInTime⟩
      fun kept legal ran =>
        ⟨kept.1.step legal.1 ran, kept.1.parkedInTime_step kept.2 legal.2 ran⟩
  have passes : s'.PassInTime c :=
    pass.invariant (P := fun s => s.PassInTime c)
      ⟨inv, parked, fun p chosen => by cases starts.symm.trans chosen⟩
      fun kept legal ran => kept.step legal.1 legal.2 ran
  have inTime := passes.not_expired selects
  have has := passes.inv.chosen_usage selects
  refine ⟨Proc.deadline_of_not_expired has inTime, fun s'' ran => ?_⟩
  have key := passes.inv.chosen_key selects ran
  apply Proc.deadline_of_not_expired
  · intro missing
    rw [Proc.key, Proc.key, missing] at key
    exact has (Option.map_eq_none_iff.mp key.symm)
  · rw [step_ticks ran rfl, Proc.expired_of_key key]
    exact inTime

/-- The first process, with a quota of 0, is parked and then taken from the
quota queue. -/
theorem dispatch_inTime_parked :
    ∃ s s' : Kernel 1,
      Run Kernel.step
        (fun s act => s.reenters act = false ∧ s.expiresParked act = false) (boot 1) s ∧
      (s.cpus 0).pc = .scan 0 ∧
      Run Kernel.step (fun s act => s.reenters act = false ∧ act.isTimer = false) s s' ∧
      (s'.cpus 0).pc = .chosen 0 .q ∧
      (∃ usage, (s'.procs 0).usageTime = some usage ∧ s'.ticks < usage.deadline) ∧
        ∀ s'', s'.step (.scheduler 0) = some s'' →
          ∃ usage, (s''.procs 0).usageTime = some usage ∧ s''.ticks < usage.deadline := by
  obtain ⟨s, s', run, starts, pass, selects⟩ := exists_two_runs_of_runChecked
    Kernel.step (boot 1)
    (traps 0 ++ zeroQuota 0 ++ [.proc 0 .preempt])
    (List.replicate 66 (.scheduler 0))
    (fun s act => s.reenters act = false ∧ s.expiresParked act = false)
    (fun s act => s.reenters act = false ∧ act.isTimer = false)
    (P := fun s => (s.cpus 0).pc = .scan 0) (Q := fun s => (s.cpus 0).pc = .chosen 0 .q)
    (by decide +kernel)
  exact ⟨s, s', run, starts, pass, selects, dispatch_inTime 1 s s' 0 0 .q run starts pass selects⟩

/-- The first process, in the kernel on CPU `c`, sets the quota of process 2,
which is in slot 1, to 0. -/
def zeroQuotaChild (c : Fin n) : List (Action n) :=
  .proc c (.setCpuQuota 2 0) :: List.replicate 6 (.proc c .quotaStep)

/-- The first process forks a child with deadline 1 and quota 0 on CPU `c`, and
CPU `c'` dispatches the child. -/
def lateChild (c c' : Fin n) : List (Action n) :=
  traps c ++ forkOne c (some 1) ++ zeroQuotaChild c ++ pass c'

/-- A child with deadline 1 is parked at tick 0; the clock moves to 1, and CPU 1 takes it from
the quota queue and switches to it.  If the deadline comes while the first of two threads runs,
the thread loop switches to the second one after it has dropped the process. -/
theorem dispatch_after_deadline :
    (∃ s s' s'' : Kernel 2, Run Kernel.step (fun _ _ => True) (boot 2) s ∧
      (s.cpus 1).pc = .scan 0 ∧
      Run Kernel.step (fun _ act => act.isTimer = false) s s' ∧
      (s'.cpus 1).pc = .chosen 1 .q ∧ (s'.procs 1).expired s'.ticks ∧
      s'.step (.scheduler 1) = some s'' ∧ (s''.cpus 1).proc = some 1) ∧
    ∃ s s' : Kernel 2, Run Kernel.step (fun _ _ => True) (boot 2) s ∧
      s.step (.proc 1 .preempt) = some s' ∧ (s.cpus 1).pc = .swtched (some 0) ∧
      (s'.cpus 1).pc = .swtched (some 1) ∧ (s'.procs 1).expired s'.ticks := by
  constructor
  · obtain ⟨s, s', run, starts, pass, ⟨selects, late⟩, switches⟩ :=
      exists_two_runs_of_runChecked Kernel.step (boot 2)
        (lateChild 0 1 ++ [.proc 1 .preempt, .clockintr 0]) (List.replicate 66 (.scheduler 1))
        (fun _ _ => True) (fun _ act => act.isTimer = false)
        (P := fun s => (s.cpus 1).pc = .scan 0)
        (Q := fun s' => ((s'.cpus 1).pc = .chosen 1 .q ∧ (s'.procs 1).expired s'.ticks) ∧
          (s'.step (.scheduler 1)).any fun s'' => (s''.cpus 1).proc = some 1)
        (by decide +kernel)
    obtain ⟨s'', ran, switched⟩ := (Option.any_eq_true _ _).mp switches
    exact ⟨s, s', s'', run, starts, pass, selects, late, ran, of_decide_eq_true switched⟩
  obtain ⟨s, run, first, goesOn⟩ := exists_run_of_runFrom Kernel.step (boot 2)
    (lateChild 0 1 ++
      [.proc 1 .usertrapret, .proc 1 .usertrap, .proc 1 (.createThread 64 7 4096 true true),
        .proc 1 .preempt] ++ parkedPass 1 ++ [.clockintr 0])
    (P := fun s => (s.cpus 1).pc = .swtched (some 0) ∧
      (s.step (.proc 1 .preempt)).any fun s' =>
        decide ((s'.cpus 1).pc = .swtched (some 1) ∧ (s'.procs 1).expired s'.ticks))
    (by decide +kernel)
  obtain ⟨s', ran, second⟩ := (Option.any_eq_true _ _).mp goesOn
  exact ⟨s, s', run, ran, first, of_decide_eq_true second⟩

/-! ### The quota -/

/-!
The quota test after `swtch` is made only for a `RUNNABLE` process (the source writes
`p->state == RUNNABLE || p->state == RUNNABLE`): not for one that goes to sleep, whose quota is
lowered while it waits, or that is dispatched without a runnable thread.
-/

def Proc.overQuota (x : Proc) : Bool := x.usageTime.any fun usage => usage.quota ≤ usage.sumOfTicks

/-- States from which a process gets to the heap, or from there to a CPU, without a quota test. -/
def ProcState.untested : ProcState → Bool
  | .used => true
  | .sleeping => true
  | .runnable => true
  | .chosenToRun => true
  | _ => false

/-- The executing process goes to sleep and will have used up its quota after the accounting of
the scheduler. -/
def Kernel.sleepsOverQuota (s : Kernel n) (p : ProcId) (act : ProcAction) : Bool :=
  act.sleepCall && s.givesUp p act && (s.procs p).usageTime.any fun usage =>
    usage.quota ≤ (usage.settled s.ticksAt).sumOfTicks

/-- The executing process is about to store, for a process that waits, a quota
that is used up already. -/
def Kernel.lowersQuota (s : Kernel n) (p : ProcId) : ProcAction → Bool
  | .quotaStep =>
    match (s.procs p).context with
    | .quotaStore quota target =>
      (s.procs target).state.untested &&
        (s.procs target).usageTime.any fun usage => quota ≤ usage.sumOfTicks
    | _ => false
  | _ => false

/-- The step lets a process that has used up its quota back to the heap: it
goes to sleep, its quota is lowered while it waits, or it is taken from the
quota queue without a runnable thread. -/
def Kernel.escapesQuota (s : Kernel n) : Action n → Bool
  | .scheduler c =>
    match (s.cpus c).pc with
    | .chosen p .q =>
      (s.procs p).overQuota && (s.procs p).currentThread.isSome &&
        (List.finRange maxThread).all fun t => ((s.procs p).threads t).state ≠ .runnable
    | _ => false
  | .proc c act =>
    match s.executing c with
    | none => false
    | some (p, _) => s.sleepsOverQuota p act || s.lowersQuota p act
  | _ => false

/-- No process that will get to the heap without another test has used up its
quota. -/
def Kernel.WithinQuota (s : Kernel n) : Prop :=
  ∀ p, (s.procs p).state.untested → (s.procs p).overQuota = false

theorem boot_withinQuota : (boot n).WithinQuota := by
  intro p _
  simp only [boot]
  split <;> rfl

/-- The test reads only the two fields. -/
theorem Proc.overQuota_of_usage
    (usage : y.usageTime.map (fun usage => (usage.sumOfTicks, usage.quota, usage.deadline)) =
      x.usageTime.map fun usage => (usage.sumOfTicks, usage.quota, usage.deadline)) :
    y.overQuota = x.overQuota := by
  have overUsage : ∀ z : Proc, z.overQuota =
      (z.usageTime.map fun usage => (usage.sumOfTicks, usage.quota, usage.deadline)).any
        fun entry => decide (entry.2.1 ≤ entry.1) := by
    intro z
    rw [Proc.overQuota]
    cases z.usageTime <;> rfl
  rw [overUsage, overUsage, usage]

/-- What `sched` leaves of a process that goes to sleep or stays runnable. -/
theorem Proc.Settled.within {clock : Nat → UInt32} (fixed : x.Settled clock ticks y)
    (untested : y.state.untested)
    (slept : x.state = .sleeping → (x.usageTime.any fun usage =>
      usage.quota ≤ (usage.settled clock).sumOfTicks) = false)
    (stopped : x.state = .runnable ∨ x.state = .sleeping ∨ x.state = .zombie) :
    y.overQuota = false := by
  obtain ⟨usage, has, lim, after⟩ := fixed.usage
  obtain ⟨_, finalEq, fields⟩ := Option.map_eq_some_iff.mp after
  obtain ⟨sum, rest⟩ := Prod.mk.inj fields
  have within : ¬ usage.quota ≤ (usage.settled clock).sumOfTicks := by
    generalize y.state = state at lim untested
    generalize x.state = pre at lim slept stopped
    cases lim with
    | late => cases untested
    | overQuota => cases untested
    | within _ left => exact left
    | untested notRunnable =>
      rcases stopped with state | state | state
      · exact absurd state notRunnable
      · have left := slept state
        rwa [has, Option.any_some, decide_eq_false_iff_not] at left
      · rw [state] at untested
        cases untested
  rw [Proc.overQuota, finalEq, Option.any_some, sum, (Prod.mk.inj rest).1]
  exact decide_eq_false within

theorem Kernel.Inv.withinQuota_step (inv : s.Inv) (within : s.WithinQuota)
    (stays : s.escapesQuota act = false) (ran : s.step act = some s') :
    s'.WithinQuota := by
  intro p untested
  have changed := inv.step_change ran p
  generalize s'.procs p = y at changed untested ⊢
  cases changed with
  | idles _ state _ usage =>
    rw [Proc.overQuota, usage]
    exact within p (state ▸ untested)
  | wakes _ sleeping _ _ usage =>
    rw [Proc.overQuota, usage]
    exact within p (by rw [sleeping]; rfl)
  | readies deadline _ used readied =>
    have pre := within p (by rw [used]; rfl)
    cases deadline with
    | none =>
      rw [show y = _ from readied]
      exact pre
    | some =>
      obtain ⟨_, has, rfl⟩ := readied
      rw [Proc.overQuota, has] at pre
      exact pre
  | taken => rfl
  | freed => cases untested
  | stores _ _ _ runs storing has state _ stored =>
    rw [state] at untested
    simp only [Kernel.escapesQuota, runs, Bool.or_eq_false_iff] at stays
    simpa [Kernel.lowersQuota, storing, untested, has, Proc.overQuota, stored] using stays.2
  | drops => cases untested
  | chooses _ popped =>
    have runnable : (s.procs p).state = .runnable := inv.fits p .heap popped
    exact within p (by rw [runnable]; rfl)
  | enters _ _ _ state =>
    rw [state] at untested
    cases untested
  | rests src _ choosing _ kept threaded stuck =>
    rw [Proc.overQuota_of_usage kept.usage]
    cases src with
    | pq =>
      have chosen : (s.procs p).state = .chosenToRun := inv.fits p (.chosen _ .pq) choosing
      exact within p (by rw [chosen]; rfl)
    | q =>
      obtain ⟨_, currentEq⟩ := Option.ne_none_iff_exists'.mp threaded
      simpa [Kernel.escapesQuota, choosing, currentEq, stuck] using stays
  | own _ runs state pre =>
    rw [state, inv.fits_running (exec_running runs).1 pre] at untested
    cases untested
  | expired => cases untested
  | gives _ _ runs stopped _ usage _ fixed =>
    refine fixed.within untested (fun sleeping => ?_) ?_
    · rcases stopped with state | ⟨_, sleepCall, gives⟩ | ⟨state, _⟩
      · cases state.symm.trans sleeping
      · rw [usage]
        simp only [Kernel.escapesQuota, runs, Bool.or_eq_false_iff] at stays
        simpa [Kernel.sleepsOverQuota, sleepCall, gives] using stays.1
      · cases state.symm.trans sleeping
    · rcases stopped with state | ⟨state, _⟩ | ⟨state, _⟩
      · exact .inl state
      · exact .inr (.inl state)
      · exact .inr (.inr state)

/-- Quota enforcement.  In every run in which the thread loop never goes on to a second thread
and no process with a used-up quota escapes the test, a process taken from the heap has quota
left, and a CPU turns to the quota queue only when the heap is empty. -/
theorem quota_enforced (n : Nat) (s : Kernel n) (run : Run Kernel.step
      (fun s act => s.reenters act = false ∧ s.escapesQuota act = false) (boot n) s) :
    (∀ c p, (s.cpus c).pc = .chosen p .pq →
      ∃ usage, (s.procs p).usageTime = some usage ∧ usage.sumOfTicks < usage.quota) ∧
    (∀ c p src usage, (s.cpus c).pc = .chosen p src → (s.procs p).usageTime = some usage →
      usage.quota ≤ usage.sumOfTicks → src = .q) ∧
    ∀ act s' c, s.step act = some s' →
      (∀ p, (s'.cpus c).pc = .chosen p .q → (s.cpus c).pc = .chosen p .q ∨ (s.cpus c).pc = .popQ) ∧
      ((s'.cpus c).pc = .popQ → (s.cpus c).pc = .popQ ∨ s.pq.size = 0) := by
  obtain ⟨inv, within⟩ : s.Inv ∧ s.WithinQuota :=
    run.invariant (P := fun s => s.Inv ∧ s.WithinQuota) ⟨boot_inv, boot_withinQuota⟩
      fun kept legal ran =>
        ⟨kept.1.step legal.1 ran, kept.1.withinQuota_step kept.2 legal.2 ran⟩
  have fromHeap : ∀ c p, (s.cpus c).pc = .chosen p .pq →
      ∃ usage, (s.procs p).usageTime = some usage ∧ usage.sumOfTicks < usage.quota := by
    intro c p chosen
    have state : (s.procs p).state = .chosenToRun := inv.fits p (.chosen c .pq) chosen
    have left := within p (by rw [state]; rfl)
    obtain ⟨usage, has⟩ := Option.ne_none_iff_exists'.mp (inv.chosen_usage chosen)
    rw [Proc.overQuota, has, Option.any_some, decide_eq_false_iff_not] at left
    exact ⟨usage, has, UInt32.not_le.mp left⟩
  refine ⟨fromHeap, fun c p src usage chosen has used => ?_, fun act s' c ran => ?_⟩
  · cases src with
    | pq =>
      obtain ⟨_, has', left⟩ := fromHeap c p chosen
      cases has.symm.trans has'
      exact absurd used (UInt32.not_le.mpr left)
    | q => rfl
  rcases step_pc ran c with same | after
  · rw [same]
    exact ⟨fun p chosen => .inl chosen, fun popping => .inl popping⟩
  refine ⟨fun p chosen => ?_, fun popping => ?_⟩
  · rw [chosen] at after
    cases after with
    | free _ handsFree => cases handsFree
    | choseQ _ popping => exact .inr popping
  · rw [popping] at after
    cases after with
    | free _ _ emptied => exact .inr (emptied rfl)

/-- The first process is taken from the heap, runs, and is taken from the heap
again after a timer tick. -/
theorem quota_enforced_twice :
    ∃ s : Kernel 1,
      Run Kernel.step
        (fun s act => s.reenters act = false ∧ s.escapesQuota act = false) (boot 1) s ∧
      ((s.cpus 0).pc = .chosen 0 .pq ∧ s.ticks = 1) ∧
      (∀ c p, (s.cpus c).pc = .chosen p .pq →
        ∃ usage, (s.procs p).usageTime = some usage ∧ usage.sumOfTicks < usage.quota) ∧
      (∀ c p src usage, (s.cpus c).pc = .chosen p src → (s.procs p).usageTime = some usage →
        usage.quota ≤ usage.sumOfTicks → src = .q) ∧
      ∀ act s' c, s.step act = some s' →
        (∀ p, (s'.cpus c).pc = .chosen p .q →
          (s.cpus c).pc = .chosen p .q ∨ (s.cpus c).pc = .popQ) ∧
        ((s'.cpus c).pc = .popQ → (s.cpus c).pc = .popQ ∨ s.pq.size = 0) := by
  obtain ⟨s, run, chosen⟩ := exists_run_of_runChecked Kernel.step
    (fun s act => s.reenters act = false ∧ s.escapesQuota act = false) (boot 1)
    (pass 0 ++ [.clockintr 0, .proc 0 .preempt] ++ List.replicate 65 (.scheduler 0))
    (P := fun s => (s.cpus 0).pc = .chosen 0 .pq ∧ s.ticks = 1) (by decide +kernel)
  exact ⟨s, run, chosen, quota_enforced 1 s run⟩

/-- Ways around the quota test: a process that has used up its quota sleeps and is woken, or uses
it up by a tick between the accounting of `sched` and that of the scheduler; the quota of a
`RUNNABLE` child is set to 0; a parked process whose threads have all called `join_thread` is
dispatched and left `RUNNABLE`. -/
theorem chosen_over_quota :
    (∃ s : Kernel 1, Run Kernel.step (fun _ _ => True) (boot 1) s ∧
      (s.cpus 0).pc = .chosen 0 .pq ∧ (s.procs 0).overQuota) ∧
    (∃ s : Kernel 2, Run Kernel.step (fun _ _ => True) (boot 2) s ∧
      (s.cpus 0).pc = .chosen 0 .pq ∧ (s.procs 0).overQuota) ∧
    (∃ s : Kernel 2, Run Kernel.step (fun _ _ => True) (boot 2) s ∧
      (s.cpus 1).pc = .chosen 1 .pq ∧ (s.procs 1).overQuota) ∧
    ∃ s : Kernel 1, Run Kernel.step (fun _ _ => True) (boot 1) s ∧
      (s.cpus 0).pc = .chosen 0 .pq ∧ (s.procs 0).overQuota := by
  refine ⟨?_, ?_, ?_, ?_⟩
  · exact exists_run_of_runFrom _ _ (traps 0 ++ zeroQuota 0 ++ [.proc 0 (.sleep .ticks), .clockintr 0] ++
        List.replicate 65 (.scheduler 0)) (by decide +kernel)
  · exact exists_run_of_runFrom _ _ (traps 1 ++ .proc 1 (.setCpuQuota 1 1) ::
        List.replicate 4 (.proc 1 .quotaStep) ++ [.tick 0 2, .proc 1 (.sleep .ticks),
          .wakeup 0 .ticks] ++ List.replicate 65 (.scheduler 0)) (by decide +kernel)
  · exact exists_run_of_runFrom _ _ (traps 0 ++ forkOne 0 none ++ zeroQuotaChild 0 ++
        List.replicate 65 (.scheduler 1)) (by decide +kernel)
  exact exists_run_of_runFrom _ _ (traps 0 ++ zeroQuota 0 ++
      [.proc 0 (.createThread 64 7 4096 true true), .proc 0 (.joinThread 1), .proc 0 .yield] ++ parkedPass 0 ++ [.proc 0 (.joinThread 2), .proc 0 .yield] ++
      parkedPass 0 ++ List.replicate 65 (.scheduler 0)) (by decide +kernel)

end CustomXv6

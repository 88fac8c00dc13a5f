/-
Module: CustomXv6.Kernel.Ready
Purpose: The places of a process in the heap, the quota queue and the CPUs, under all steps.
Trusted boundary: none
Main exports: Kernel.Inv, Kernel.Inv.schedStep, Kernel.Inv.step
-/
import CustomXv6.Kernel.Steps

namespace CustomXv6

open Transition
open Function

variable {n : Nat} {x y z : Proc} {p : ProcId} {s s' : Kernel n} {c : Fin n} {procs : ProcId → Proc}

/-!
Every process is in at most one place, and its state tells which: one of the two shared
structures, the hands of a CPU between choosing a process and dispatching it, or a CPU.
-/

/-- The places in which the scheduler refers to a process. -/
inductive Place (n : Nat) where
  | heap
  | queue
  | chosen (c : Fin n) (src : Source)
  | cpu (c : Fin n)
deriving DecidableEq, Repr

def Kernel.At (s : Kernel n) (p : ProcId) : Place n → Prop
  | .heap => p ∈ s.pq.procs
  | .queue => p ∈ s.q.toList
  | .chosen c src => (s.cpus c).pc = .chosen p src
  | .cpu c => (s.cpus c).proc = some p

/-- What a process in that place looks like.  The only process that executes
in another state than `RUNNING` is one on its way from the deadline test of
`usertrap` to its `yield`. -/
def Place.Fits (x : Proc) : Place n → Prop
  | .heap => x.state = .runnable
  | .queue => x.state = .passedQuota
  | .chosen _ .pq => x.state = .chosenToRun
  | .chosen _ .q => x.state = .passedQuota
  | .cpu _ => x.state = .running ∨ (x.state = .dropped ∧ x.context = .trapYield)

/-- States in which the scheduler does not refer to a process. -/
def ProcState.off : ProcState → Bool
  | .unused => true
  | .used => true
  | .sleeping => true
  | .zombie => true
  | _ => false

variable {a : Place n} {pq : PriorityQueue} {q : Queue}

theorem Place.Fits.not_off (fits : a.Fits x) : x.state.off = false := by
  cases a with
  | heap => rw [show x.state = .runnable from fits]; rfl
  | queue => rw [show x.state = .passedQuota from fits]; rfl
  | chosen _ src =>
    cases src with
    | pq => rw [show x.state = .chosenToRun from fits]; rfl
    | q => rw [show x.state = .passedQuota from fits]; rfl
  | cpu =>
    rcases fits with running | ⟨dropped, _⟩
    · rw [running]; rfl
    · rw [dropped]; rfl

/-- A process in use has its `usage_time`. -/
def Proc.UsageOk (x : Proc) : Prop := x.state ≠ .unused → x.usageTime ≠ none

/-- A process that a `fork` is setting up is `USED`, and only one `fork` sets
it up. -/
structure ForkInv (procs : ProcId → Proc) : Prop where
  used : ∀ p np, (procs p).context.forking = some np → (procs np).state = .used
  unique : ∀ p p' np, (procs p).context.forking = some np →
    (procs p').context.forking = some np → p = p'

structure Kernel.Inv (s : Kernel n) : Prop where
  unique : ∀ p a b, s.At p a → s.At p b → a = b
  fits : ∀ p a, s.At p a → a.Fits (s.procs p)
  parked : ∀ p, (s.procs p).state = .passedQuota → ∃ a, s.At p a
  heapNodup : s.pq.procs.Nodup
  queueNodup : s.q.toList.Nodup
  queueValid : s.q.Valid
  idle : ∀ c, (s.cpus c).pc.inPass → (s.cpus c).proc = none
  usage : ∀ p, (s.procs p).UsageOk
  forks : ForkInv s.procs

/-- A process that the scheduler refers to is in use. -/
theorem Kernel.Inv.in_use (inv : s.Inv) (atA : s.At p a) : (s.procs p).state ≠ .unused := by
  intro unused
  have notOff := (inv.fits p a atA).not_off
  rw [unused] at notOff
  cases notOff

theorem boot_inv : (boot n).Inv where
  unique := by
    intro p a b atA
    cases a <;> simp [Kernel.At, boot, pqInit, PriorityQueue.procs, ArrayHeap.contents] at atA
  fits := by
    intro p a atA
    cases a <;> simp [Kernel.At, boot, pqInit, PriorityQueue.procs, ArrayHeap.contents] at atA
  parked := by
    intro p passed
    simp only [boot] at passed
    split at passed <;> cases passed
  heapNodup := by simp [boot, pqInit, PriorityQueue.procs, ArrayHeap.contents]
  queueNodup := by simp [boot]
  queueValid := Queue.valid_initializeQueue
  idle := fun _ _ => rfl
  usage := by
    intro p inUse
    simp only [boot] at inUse ⊢
    split
    · simp [initcodeProc]
    rename_i other
    rw [if_neg other] at inUse
    exact absurd rfl inUse
  forks := by
    have none : ∀ p, ((boot n).procs p).context.forking = none := by
      intro p
      simp only [boot]
      split <;> rfl
    exact ⟨fun p np forking => by simp [none p] at forking,
      fun p _ np forking => by simp [none p] at forking⟩

/-- Only process `p` changes, in its record or its place: it ends up in
`target`. -/
theorem Kernel.Inv.relocate (inv : s.Inv) (p : ProcId) (target : Option (Place n))
    (otherPlaces : ∀ p', p' ≠ p → ∀ a, s'.At p' a ↔ s.At p' a)
    (otherProcs : ∀ p', p' ≠ p → s'.procs p' = s.procs p')
    (here : ∀ a, s'.At p a ↔ target = some a) (fits : ∀ a, target = some a → a.Fits (s'.procs p))
    (parked : (s'.procs p).state = .passedQuota → target ≠ none) (heapNodup : s'.pq.procs.Nodup)
    (queueNodup : s'.q.toList.Nodup) (queueValid : s'.q.Valid)
    (idle : ∀ c, (s'.cpus c).pc.inPass → (s'.cpus c).proc = none) (usage : (s'.procs p).UsageOk)
    (forks : ForkInv s'.procs) : s'.Inv where
  unique := by
    intro p' a b atA atB
    by_cases same : p' = p
    · subst same
      exact Option.some.inj (((here a).mp atA).symm.trans ((here b).mp atB))
    · exact inv.unique p' a b ((otherPlaces p' same a).mp atA) ((otherPlaces p' same b).mp atB)
  fits := by
    intro p' a atA
    by_cases same : p' = p
    · subst same
      exact fits a ((here a).mp atA)
    · rw [otherProcs p' same]
      exact inv.fits p' a ((otherPlaces p' same a).mp atA)
  parked := by
    intro p' passed
    by_cases same : p' = p
    · subst same
      obtain ⟨a, targetEq⟩ := Option.ne_none_iff_exists'.mp (parked passed)
      exact ⟨a, (here a).mpr targetEq⟩
    · rw [otherProcs p' same] at passed
      obtain ⟨a, atA⟩ := inv.parked p' passed
      exact ⟨a, (otherPlaces p' same a).mpr atA⟩
  heapNodup := heapNodup
  queueNodup := queueNodup
  queueValid := queueValid
  idle := idle
  usage := by
    intro p'
    by_cases same : p' = p
    · subst same
      exact usage
    · rw [otherProcs p' same]
      exact inv.usage p'
  forks := forks

/-- The CPU has `p` in hand or runs it. -/
def Cpu.Refers (cpu : Cpu) (p : ProcId) : Prop :=
  (∃ src, cpu.pc = .chosen p src) ∨ cpu.proc = some p

/-- A section of CPU `c` that moves process `p` and refers to no other
process. -/
theorem Kernel.Inv.relocateCpu (inv : s.Inv) {cpu : Cpu} (target : Option (Place n))
    (heapOthers : ∀ p', p' ≠ p → (p' ∈ pq.procs ↔ p' ∈ s.pq.procs))
    (queueOthers : ∀ p', p' ≠ p → (p' ∈ q.toList ↔ p' ∈ s.q.toList))
    (pre : ∀ p', (s.cpus c).Refers p' → p' = p) (after : ∀ p', cpu.Refers p' → p' = p)
    (elsewhere : ∀ c', (s.cpus c').Refers p → c' = c)
    (onHeap : p ∈ pq.procs ↔ target = some .heap) (onQueue : p ∈ q.toList ↔ target = some .queue)
    (onChosen : ∀ c' src, target = some (.chosen c' src) ↔ c' = c ∧ cpu.pc = .chosen p src)
    (onCpu : ∀ c', target = some (.cpu c') ↔ c' = c ∧ cpu.proc = some p)
    (fits : ∀ a, target = some a → a.Fits x) (parked : x.state = .passedQuota → target ≠ none)
    (heapNodup : pq.procs.Nodup) (queueNodup : q.toList.Nodup) (queueValid : q.Valid)
    (idle : cpu.pc.inPass → cpu.proc = none) (usage : x.UsageOk)
    (forks : ForkInv (update s.procs p x)) :
    (({ s with pq := pq, q := q }.setProc p x).setCpu c cpu).Inv := by
  refine inv.relocate p target ?_ ?_ ?_ ?_ ?_ heapNodup queueNodup queueValid ?_ ?_ forks
  · intro p' ne a
    have notBefore : ¬ (s.cpus c).Refers p' := fun refers => ne (pre p' refers)
    have notAfter : ¬ cpu.Refers p' := fun refers => ne (after p' refers)
    simp only [Cpu.Refers, not_or, not_exists] at notBefore notAfter
    cases a with
    | heap => exact heapOthers p' ne
    | queue => exact queueOthers p' ne
    | chosen c' src =>
      by_cases same : c' = c
      · subst same
        simp [Kernel.At, notBefore.1 src, notAfter.1 src]
      · simp [Kernel.At, update_of_ne same]
    | cpu c' =>
      by_cases same : c' = c
      · subst same
        simp [Kernel.At, notBefore.2, notAfter.2]
      · simp [Kernel.At, update_of_ne same]
  · intro _ ne
    simp [ne]
  · intro a
    cases a with
    | heap => exact onHeap
    | queue => exact onQueue
    | chosen c' src =>
      rw [onChosen]
      by_cases same : c' = c
      · subst same
        simp [Kernel.At]
      have notHere : (s.cpus c').pc ≠ .chosen p src := fun refers =>
        same (elsewhere c' (.inl ⟨src, refers⟩))
      simp [Kernel.At, same, notHere]
    | cpu c' =>
      rw [onCpu]
      by_cases same : c' = c
      · subst same
        simp [Kernel.At]
      have notHere : (s.cpus c').proc ≠ some p := fun refers =>
        same (elsewhere c' (.inr refers))
      simp [Kernel.At, same, notHere]
  · simpa using fits
  · simpa using parked
  · intro c' inPass
    by_cases same : c' = c
    · subst same
      simp only [Kernel.setCpu_cpus, update_self] at inPass ⊢
      exact idle inPass
    · simp only [Kernel.setCpu_cpus, update_of_ne same] at inPass ⊢
      exact inv.idle c' inPass
  · simpa using usage

/-- A step in which no process ceases to be `USED` and no new `fork` begins. -/
theorem ForkInv.pointwise {procs' : ProcId → Proc} (inv : ForkInv procs)
    (used : ∀ p, (procs p).state = .used → (procs' p).state = .used)
    (forking : ∀ p, (procs' p).context.forking = (procs p).context.forking ∨
      (procs' p).context.forking = none) : ForkInv procs' := by
  have pre : ∀ p np, (procs' p).context.forking = some np →
      (procs p).context.forking = some np := by
    intro p np forks
    rcases forking p with equal | none
    · rw [← equal]
      exact forks
    · rw [none] at forks
      cases forks
  exact ⟨fun p np forks => used np (inv.used p np (pre p np forks)),
    fun p p' np forks forks' => inv.unique p p' np (pre p np forks) (pre p' np forks')⟩

/-- Setting one process in such a step. -/
theorem ForkInv.update (inv : ForkInv procs) (used : (procs p).state = .used → x.state = .used)
    (forking : x.context.forking = (procs p).context.forking ∨ x.context.forking = none) :
    ForkInv (update procs p x) := by
  refine inv.pointwise (fun p' isUsed => ?_) fun p' => ?_
  · by_cases same : p' = p
    · subst same
      rw [update_self]
      exact used isUsed
    · rwa [update_of_ne same]
  by_cases same : p' = p
  · subst same
    rw [update_self]
    exact forking
  · rw [update_of_ne same]
    exact .inl rfl

theorem ForkInv.updatePair (inv : ForkInv procs) {i : ProcId} (ne : i ≠ p)
    (usedOther : (procs i).state = .used → y.state = .used)
    (used : (procs p).state = .used → x.state = .used)
    (forkingOther : y.context.forking = (procs i).context.forking ∨ y.context.forking = none)
    (forking : x.context.forking = (procs p).context.forking ∨ x.context.forking = none) :
    ForkInv (Function.update (Function.update procs i y) p x) := by
  apply ForkInv.update (inv.update usedOther forkingOther)
  · rw [update_of_ne (Ne.symm ne)]
    exact used
  · rw [update_of_ne (Ne.symm ne)]
    exact forking

/-! ### Steps of the scheduler -/

namespace Kernel.Inv

variable {src : Source}

section

variable (inv : s.Inv)
include inv

/-- A `RUNNABLE` process that is not in the heap is nowhere. -/
theorem nowhere (runnable : (s.procs p).state = .runnable)
    (absent : p ∉ s.pq.procs) (a : Place n) : ¬ s.At p a := by
  intro atA
  have fits := inv.fits p a atA
  cases a with
  | heap => exact absent atA
  | queue => cases runnable.symm.trans fits
  | chosen _ src => cases src <;> cases runnable.symm.trans fits
  | cpu =>
    rcases fits with running | ⟨dropped, _⟩
    · cases runnable.symm.trans running
    · cases runnable.symm.trans dropped

/-- A process that is in one place is in no other. -/
theorem only (atA : s.At p a) {b : Place n} (ne : b ≠ a) :
    ¬ s.At p b := fun atB => ne (inv.unique p b a atB atA)

variable {pc : SchedPc}

/-- Moving the scheduler of a CPU between points at which it has no process in
hand. -/
theorem setPc (pre : ∀ p src, (s.cpus c).pc ≠ .chosen p src)
    (after : ∀ p src, pc ≠ .chosen p src) (idle : pc.inPass → (s.cpus c).proc = none) :
    (s.setPc c pc).Inv := by
  have places : ∀ p a, (s.setPc c pc).At p a ↔ s.At p a := by
    intro p a
    cases a with
    | heap => exact Iff.rfl
    | queue => exact Iff.rfl
    | chosen c' =>
      by_cases same : c' = c
      · subst same
        simp [Kernel.At, Kernel.setPc, pre, after]
      · simp [Kernel.At, Kernel.setPc, update_of_ne same]
    | cpu c' =>
      by_cases same : c' = c
      · subst same
        simp [Kernel.At, Kernel.setPc]
      · simp [Kernel.At, Kernel.setPc, update_of_ne same]
  refine ⟨fun p a b atA atB => ?_, fun p a atA => ?_, fun p passed => ?_, inv.heapNodup,
    inv.queueNodup, inv.queueValid, fun c' inPass => ?_, inv.usage, inv.forks⟩
  · exact inv.unique p a b ((places p a).mp atA) ((places p b).mp atB)
  · exact inv.fits p a ((places p a).mp atA)
  · obtain ⟨a, atA⟩ := inv.parked p passed
    exact ⟨a, (places p a).mpr atA⟩
  by_cases same : c' = c
  · subst same
    simp only [Kernel.setPc, Kernel.setCpu_cpus, update_self] at inPass ⊢
    exact idle inPass
  · simp only [Kernel.setPc, Kernel.setCpu_cpus, update_of_ne same] at inPass ⊢
    exact inv.idle c' inPass

theorem panic (reason : Panic)
    (pre : ∀ p src, (s.cpus c).pc ≠ .chosen p src) : (s.panic c reason).Inv :=
  inv.setPc pre (fun _ _ => by simp) nofun

/-- An accepted push. -/
theorem push (runnable : (s.procs p).state = .runnable) (absent : p ∉ s.pq.procs)
    (pushed : pq.procs = p ::ₘ s.pq.procs) : { s with pq := pq }.Inv := by
  have nowhere := inv.nowhere runnable absent
  refine inv.relocate p (some .heap) ?_ (fun _ _ => rfl) ?_ ?_ (fun _ => by simp) ?_ inv.queueNodup
    inv.queueValid inv.idle (inv.usage p) inv.forks
  · intro _ ne a
    cases a with
    | heap => simp [Kernel.At, pushed, ne]
    | queue => exact Iff.rfl
    | chosen => exact Iff.rfl
    | cpu => exact Iff.rfl
  · intro a
    cases a with
    | heap => simp [Kernel.At, pushed]
    | queue => exact iff_of_false (nowhere .queue) (by simp)
    | chosen c src => exact iff_of_false (nowhere (.chosen c src)) (by simp)
    | cpu c => exact iff_of_false (nowhere (.cpu c)) (by simp)
  · rintro a ⟨⟩
    exact runnable
  · rw [pushed]
    exact Multiset.nodup_cons.mpr ⟨absent, inv.heapNodup⟩

/-- The root of the heap is taken out and dropped. -/
theorem drop (popped : s.pq.procs = p ::ₘ pq.procs) :
    ({ s with pq := pq }.setProc p { s.procs p with state := .dropped }).Inv := by
  have inHeap : s.At p .heap := by simp [Kernel.At, popped]
  have runnable : (s.procs p).state = .runnable := inv.fits p .heap inHeap
  have split := inv.heapNodup
  rw [popped, Multiset.nodup_cons] at split
  refine inv.relocate p none ?_ ?_ ?_ nofun ?_ split.2
    inv.queueNodup inv.queueValid inv.idle ?_ ?_
  · intro p' ne a
    cases a with
    | heap => simp [Kernel.At, popped, ne]
    | queue => exact Iff.rfl
    | chosen => exact Iff.rfl
    | cpu => exact Iff.rfl
  · intro _ ne
    simp [ne]
  · intro a
    refine iff_of_false ?_ (by simp)
    cases a with
    | heap => exact split.1
    | queue => exact inv.only inHeap (b := .queue) (by simp)
    | chosen c src => exact inv.only inHeap (b := .chosen c src) (by simp)
    | cpu c => exact inv.only inHeap (b := .cpu c) (by simp)
  · simp
  · intro _
    have usage := inv.usage p (by simp [runnable])
    simpa using usage
  · refine inv.forks.update ?_ (.inl rfl)
    intro used
    cases runnable.symm.trans used

/-- No CPU refers to a process that is in one of the two shared structures. -/
theorem not_refers (atA : s.At p a) (shared : a = .heap ∨ a = .queue) (c : Fin n) :
    ¬ (s.cpus c).Refers p := by
  rintro (⟨src, chosen⟩ | running)
  · have same : Place.chosen c src = a := inv.unique p _ _ chosen atA
    rcases shared with rfl | rfl <;> cases same
  · have same : Place.cpu c = a := inv.unique p _ _ running atA
    rcases shared with rfl | rfl <;> cases same

/-- The root of the heap is taken into the hands of CPU `c`. -/
theorem choose (popping : (s.cpus c).pc = .popPq) (popped : s.pq.procs = p ::ₘ pq.procs) :
    (({ s with pq := pq }.setProc p { s.procs p with state := .chosenToRun }).setPc c
      (.chosen p .pq)).Inv := by
  have inHeap : s.At p .heap := by simp [Kernel.At, popped]
  have runnable : (s.procs p).state = .runnable := inv.fits p .heap inHeap
  have idle : (s.cpus c).proc = none := inv.idle c (by rw [popping]; rfl)
  have split := inv.heapNodup
  rw [popped, Multiset.nodup_cons] at split
  refine inv.relocateCpu (some (.chosen c .pq)) ?_ (fun _ _ => Iff.rfl) ?_ ?_ ?_ ?_ ?_ ?_ ?_ ?_
    (fun _ => by simp) split.2 inv.queueNodup inv.queueValid (fun _ => idle) ?_ ?_
  · intro p' ne
    simp [popped, ne]
  · rintro p' (⟨src, chosen⟩ | running)
    · simp [popping] at chosen
    · simp [idle] at running
  · rintro _ (⟨src, chosen⟩ | running)
    · cases chosen
      rfl
    · simp [idle] at running
  · exact fun c' refers => absurd refers (inv.not_refers inHeap (.inl rfl) c')
  · simpa using split.1
  · simpa [Kernel.At] using inv.only inHeap (b := .queue) (by simp)
  · intro c' _
    simp [eq_comm]
  · intro _
    simp [idle]
  · rintro a ⟨⟩
    rfl
  · intro _
    exact inv.usage p (by simp [runnable])
  · refine inv.forks.update ?_ (.inl rfl)
    intro used
    cases runnable.symm.trans used

/-- The head of the quota queue is taken into the hands of CPU `c`. -/
theorem chooseParked (popping : (s.cpus c).pc = .popQ) (popped : s.q.toList = p :: q.toList)
    (valid : q.Valid) : ({ s with q := q }.setPc c (.chosen p .q)).Inv := by
  have inQueue : s.At p .queue := by simp [Kernel.At, popped]
  have passed : (s.procs p).state = .passedQuota := inv.fits p .queue inQueue
  have idle : (s.cpus c).proc = none := inv.idle c (by rw [popping]; rfl)
  have split := inv.queueNodup
  rw [popped, List.nodup_cons] at split
  have moved : (({ s with pq := s.pq, q := q }.setProc p (s.procs p)).setCpu c
      { s.cpus c with pc := .chosen p .q }).Inv := by
    refine inv.relocateCpu (some (.chosen c .q)) (fun _ _ => Iff.rfl) ?_ ?_ ?_ ?_ ?_ ?_ ?_ ?_ ?_
      (fun _ => by simp) inv.heapNodup split.2 valid (fun _ => idle) (inv.usage p) ?_
    · intro p' ne
      simp [popped, ne]
    · rintro p' (⟨src, chosen⟩ | running)
      · simp [popping] at chosen
      · simp [idle] at running
    · rintro _ (⟨src, chosen⟩ | running)
      · cases chosen
        rfl
      · simp [idle] at running
    · exact fun c' refers => absurd refers (inv.not_refers inQueue (.inr rfl) c')
    · simpa [Kernel.At] using inv.only inQueue (b := .heap) (by simp)
    · simpa using split.1
    · intro c' _
      simp [eq_comm]
    · intro _
      simp [idle]
    · rintro a ⟨⟩
      exact passed
    · exact inv.forks.update id (.inl rfl)
  rwa [Kernel.setProc, update_eq_self] at moved

/-- The process in the hands of CPU `c` is switched to, or the CPU stops while
dispatching it. -/
theorem run (choosing : (s.cpus c).pc = .chosen p src) (running : x.state = .running)
    (context : x.context = (s.procs p).context) (usage : x.usageTime ≠ none)
    (out : pc.inPass = false) :
    ((s.setProc p x).setCpu c { proc := some p, pc := pc }).Inv := by
  have inHand : s.At p (.chosen c src) := choosing
  have idle : (s.cpus c).proc = none := inv.idle c (by rw [choosing]; rfl)
  have notChosen : ∀ p' source', pc ≠ .chosen p' source' := by
    rintro p' source' rfl
    cases out
  refine inv.relocateCpu (some (.cpu c)) (fun _ _ => Iff.rfl) (fun _ _ => Iff.rfl) ?_ ?_ ?_ ?_ ?_ ?_
    ?_ ?_ (fun _ => by simp) inv.heapNodup inv.queueNodup inv.queueValid ?_ (fun _ => usage) ?_
  · rintro p' (⟨source', chosen⟩ | executing)
    · rw [choosing] at chosen
      cases chosen
      rfl
    · simp [idle] at executing
  · rintro p' (⟨source', chosen⟩ | executing)
    · exact absurd chosen (notChosen p' source')
    · cases executing
      rfl
  · rintro c' (⟨source', chosen⟩ | executing)
    · cases inv.unique p (.chosen c' source') (.chosen c src) chosen inHand
      rfl
    · cases inv.unique p (.cpu c') (.chosen c src) executing inHand
  · simpa [Kernel.At] using inv.only inHand (b := .heap) (by simp)
  · simpa [Kernel.At] using inv.only inHand (b := .queue) (by simp)
  · intro c' _
    simp [notChosen]
  · intro _
    simp [eq_comm]
  · rintro a ⟨⟩
    exact .inl running
  · intro inPass
    rw [out] at inPass
    cases inPass
  refine inv.forks.update ?_ (.inl (by rw [context]))
  intro used
  have notOff := (inv.fits p _ inHand).not_off
  rw [used] at notOff
  cases notOff

end

/-- Where a process that a CPU lets go of ends up: in the quota queue, or nowhere. -/
structure LetGo (s : Kernel n) (p : ProcId) (x : Proc) (q : Queue) : Prop where
  state : x.state ≠ .running
  parked : x.state = .passedQuota → q = (enqueue s.q p).2
  unparked : x.state ≠ .passedQuota → q = s.q

/-- There is room in the quota queue for a process that is not in it. -/
theorem queue_room (inv : s.Inv) (absent : p ∉ s.q.toList) : s.q.size < nproc := by
  have smaller := Finset.card_lt_univ_of_notMem (s := s.q.toList.toFinset)
    (x := p) (by simpa using absent)
  rwa [List.toFinset_card_of_nodup inv.queueNodup, Queue.toList_length, Fintype.card_fin] at smaller

/-- CPU `c` lets go of the process it has in hand or runs. -/
theorem letGo (inv : s.Inv) (refers : (s.cpus c).Refers p) (goes : LetGo s p x q)
    (forking : x.context.forking = (s.procs p).context.forking ∨ x.context.forking = none)
    (usage : x.UsageOk) : ({ s with q := q }.leave c p x).Inv := by
  obtain ⟨a, atA, onC⟩ : ∃ a, s.At p a ∧ ((∃ src, a = .chosen c src) ∨ a = .cpu c) := by
    rcases refers with ⟨src, chosen⟩ | running
    · exact ⟨.chosen c src, chosen, .inl ⟨src, rfl⟩⟩
    · exact ⟨.cpu c, running, .inr rfl⟩
  have notHeap : p ∉ s.pq.procs := inv.only atA (b := .heap) (by rcases onC with ⟨_, rfl⟩ | rfl <;> simp)
  have notQueue : p ∉ s.q.toList :=
    inv.only atA (b := .queue) (by rcases onC with ⟨_, rfl⟩ | rfl <;> simp)
  have onlyP : ∀ p', (s.cpus c).Refers p' → p' = p := by
    rintro p' (⟨src, chosen⟩ | running)
    · have idle : (s.cpus c).proc = none := inv.idle c (by rw [chosen]; rfl)
      rcases refers with ⟨_, chosen'⟩ | running
      · rw [chosen] at chosen'
        cases chosen'
        rfl
      · simp [idle] at running
    · rcases refers with ⟨src, chosen⟩ | running'
      · have idle : (s.cpus c).proc = none := inv.idle c (by rw [chosen]; rfl)
        simp [idle] at running
      · exact Option.some.inj (running.symm.trans running')
  have elsewhere : ∀ c', (s.cpus c').Refers p → c' = c := by
    rintro c' (⟨src, chosen⟩ | running)
    · have same := inv.unique p _ _ (show s.At p (.chosen c' src) from chosen) atA
      rcases onC with ⟨_, rfl⟩ | rfl <;> cases same
      rfl
    · have same := inv.unique p _ _ (show s.At p (.cpu c') from running) atA
      rcases onC with ⟨_, rfl⟩ | rfl <;> cases same
      rfl
  have notUsed : (s.procs p).state ≠ .used := by
    intro used
    have notOff := (inv.fits p a atA).not_off
    rw [used] at notOff
    cases notOff
  rw [Kernel.leave, if_neg goes.state]
  obtain ⟨_, valid, contents⟩ := enqueue_spec inv.queueValid (inv.queue_room notQueue) p
  by_cases passed : x.state = .passedQuota
  · rw [goes.parked passed]
    refine inv.relocateCpu (some .queue) (fun _ _ => Iff.rfl) ?_ onlyP ?_ elsewhere ?_ ?_ ?_ ?_ ?_
      (fun _ => by simp) inv.heapNodup ?_ valid (fun _ => rfl) usage ?_
    · intro p' ne
      simp [contents, ne]
    · rintro p' (⟨src, chosen⟩ | running)
      · cases chosen
      · cases running
    · simpa using notHeap
    · simp [contents]
    · simp
    · simp
    · rintro _ ⟨⟩
      exact passed
    · rw [contents]
      exact List.Nodup.append inv.queueNodup (List.nodup_singleton p)
        (List.disjoint_singleton.mpr notQueue)
    · exact inv.forks.update (fun used => absurd used notUsed) forking
  rw [goes.unparked passed]
  refine inv.relocateCpu none (fun _ _ => Iff.rfl) (fun _ _ => Iff.rfl) onlyP ?_ elsewhere ?_ ?_
    ?_ ?_ (by simp) (fun isPassed => absurd isPassed passed)
    inv.heapNodup inv.queueNodup inv.queueValid (fun _ => rfl) usage ?_
  · rintro p' (⟨src, chosen⟩ | running)
    · cases chosen
    · cases running
  · simpa using notHeap
  · simpa using notQueue
  · simp
  · simp
  · exact inv.forks.update (fun used => absurd used notUsed) forking

/-- A process in the hands of a CPU is in use. -/
theorem chosen_usage (inv : s.Inv) (choosing : (s.cpus c).pc = .chosen p src) :
    (s.procs p).usageTime ≠ none := by
  refine inv.usage p fun unused => ?_
  have notOff := (inv.fits p (.chosen c src) choosing).not_off
  rw [unused] at notOff
  cases notOff

/-- Every step of a scheduler keeps the invariant. -/
theorem schedStep (inv : s.Inv) (step : SchedStep s c s') : s'.Inv := by
  have freeBefore : (s.cpus c).pc.handsFree → ∀ p src, (s.cpus c).pc ≠ .chosen p src := by
    intro free p src chosen
    rw [chosen] at free
    cases free
  cases step with
  | moves _ pre inPass after =>
    refine inv.setPc (freeBefore pre) ?_ (fun _ => inv.idle c inPass)
    rintro p src rfl
    cases after
  | pushes p _ _ scanning runnable absent contents after =>
    have pushed := inv.push runnable absent contents
    refine pushed.setPc (freeBefore (by rw [scanning]; rfl)) ?_
      (fun _ => inv.idle c (by rw [scanning]; rfl))
    rintro p src rfl
    rcases after with ⟨_, never⟩ | never <;> cases never
  | drops _ _ _ _ contents => exact inv.drop contents
  | chooses _ _ _ popping contents => exact inv.choose popping contents
  | unparks _ _ popping popped =>
    obtain ⟨contents, valid⟩ := pop_some inv.queueValid popped
    exact inv.chooseParked popping contents valid
  | enters _ _ _ _ _ choosing same =>
    exact inv.run choosing same.state same.context (by simp) rfl
  | rests p src x choosing same =>
    have leaves : s.leave c p { x with state := .runnable } =
        (s.setProc p { x with state := .runnable }).setCpu c { proc := none, pc := .scan 0 } := by
      simp [Kernel.leave]
    rw [← leaves]
    refine inv.letGo (.inl ⟨src, choosing⟩) ⟨by simp, by simp, fun _ => rfl⟩
      (.inl (by rw [← same.context])) (fun _ => ?_)
    rw [same.usageTime]
    exact inv.chosen_usage choosing
  | faults _ _ choosing =>
    exact inv.run choosing rfl rfl (inv.chosen_usage choosing) rfl
  | stops _ _ choosing missing => exact absurd missing (inv.chosen_usage choosing)

end Kernel.Inv

/-- The thread loop does not go on to another thread. -/
def Proc.LastThread (x : Proc) (t : ThreadId) : Prop :=
  ∀ t', t.val < t'.val → (x.threads t').state ≠ .runnable

theorem leaveThread_threads {left : Proc} {t t' : ThreadId} (ne : t' ≠ t)
    (leftEq : x.leaveThread t = some left) : left.threads t' = x.threads t' := by
  have saved : ∀ {y z : Proc}, y.saveTo t = some z → z.threads t' = y.threads t' := by
    intro y z savedEq
    rw [Proc.saveTo] at savedEq
    split at savedEq
    · cases savedEq
      simp [ne]
    · cases savedEq
  simp only [Proc.leaveThread] at leftEq
  split at leftEq
  · split at leftEq
    · cases leftEq
      simp [ne]
    · rw [saved leftEq]
      simp [ne]
  · split at leftEq
    · cases leftEq
      rfl
    · exact saved leftEq

theorem afterSwtch_last {t : ThreadId} {stop : Option ThreadId}
    (left : x.afterSwtch t = some (y, stop)) (last : x.LastThread t) : stop = none := by
  obtain ⟨saved, savedEq, looped⟩ := Option.bind_eq_some_iff.mp left
  have ended : saved.nextRunnable (t.val + 1) = none := by
    rw [Proc.nextRunnable, List.find?_eq_none]
    intro t' _ found
    obtain ⟨later, runnable⟩ := of_decide_eq_true found
    have ne : t' ≠ t := by
      rintro rfl
      omega
    rw [leaveThread_threads ne savedEq] at runnable
    exact last t' later runnable
  rw [Proc.threadLoop, ended] at looped
  cases looped
  rfl

namespace Kernel.Inv

/-- A process that gives up the CPU, and is not re-entered by the thread loop,
leaves the CPU. -/
theorem sched (inv : s.Inv) {t : Option ThreadId} (running : (s.cpus c).proc = some p)
    (stopped : x.state = .runnable ∨ x.state = .sleeping ∨ x.state = .zombie)
    (forking : x.context.forking = (s.procs p).context.forking ∨ x.context.forking = none)
    (last : ∀ t', t = some t' → x.state ≠ .zombie → x.LastThread t') : (s.sched c p t x).Inv := by
  have returned := sched_cases s c p t x
  generalize s.sched c p t x = s' at returned ⊢
  cases returned with
  | panics =>
    refine inv.panic _ fun p' src chosen => ?_
    have idle : (s.cpus c).proc = none := inv.idle c (by rw [chosen]; rfl)
    rw [running] at idle
    cases idle
  | leaves _ _ _ _ lim same =>
    refine inv.letGo (.inr running) ⟨?_, ?_, ?_⟩ ?_ ?_
    · rw [same.state]
      rintro rfl
      rcases stopped with pre | pre | pre <;> rw [pre] at lim <;> cases lim
    · rw [same.state]
      rintro rfl
      have pre : x.state = .runnable := by
        rcases stopped with pre | pre | pre
        · exact pre
        · rw [pre] at lim
          cases lim
        · rw [pre] at lim
          cases lim
      exact if_pos ⟨pre, rfl⟩
    · rw [same.state]
      exact fun notPassed => if_neg fun both => notPassed both.2
    · rw [same.context]
      exact forking
    · intro _
      rw [same.usageTime]
      simp
  | reenters _ _ _ t' _ _ lim threaded alive left =>
    have notZombie : x.state ≠ .zombie := by
      intro zombie
      rw [zombie] at lim
      cases lim
      exact alive rfl
    cases afterSwtch_last left (last t' threaded notZombie)

end Kernel.Inv

/-- What the heap compares. -/
def Proc.key (x : Proc) : Option (UInt32 × UInt32) :=
  x.usageTime.map fun usage => (usage.sumOfTicks, usage.deadline)

def Proc.expired (ticks : UInt32) (x : Proc) : Bool :=
  x.usageTime.any fun usage => usage.deadline ≤ ticks

/-! ### Waking processes -/

theorem wakeup_cases (self : Option ProcId) (chan : Option Chan) (procs : ProcId → Proc)
    (i : ProcId) : wakeup self chan procs i = procs i ∨ ((procs i).state = .sleeping ∧
      wakeup self chan procs i = { procs i with state := .runnable }) := by
  rw [wakeup]
  split
  · rename_i woken
    exact .inr ⟨woken.2.1, rfl⟩
  · exact .inl rfl

/-- The parent of a process after the children of `p` have been handed over. -/
def newParent (initproc p : ProcId) (parent : Option ProcId) : Option ProcId :=
  if parent = some p then some initproc else parent

/-- `exit` changes nothing of another process but its parent, and may wake
it. -/
theorem orphan_cases (initproc p : ProcId) (procs : ProcId → Proc) (i : ProcId) :
    orphan initproc p procs i =
        { procs i with parent := newParent initproc p (procs i).parent } ∨
      ((procs i).state = .sleeping ∧ orphan initproc p procs i =
        { procs i with parent := newParent initproc p (procs i).parent, state := .runnable }) := by
  have reparented : reparent initproc p procs i =
        { procs i with parent := newParent initproc p (procs i).parent } ∨
      ((procs i).state = .sleeping ∧ reparent initproc p procs i =
        { procs i with parent := newParent initproc p (procs i).parent, state := .runnable }) := by
    rw [reparent]
    split
    · have moved : (if (procs i).parent = some p then { procs i with parent := some initproc }
          else procs i) = { procs i with parent := newParent initproc p (procs i).parent } := by
        rw [newParent]
        split <;> rfl
      have woken := wakeup_cases (some p) (some (.proc initproc)) (fun i =>
        if (procs i).parent = some p then { procs i with parent := some initproc } else procs i) i
      simpa only [moved] using woken
    rename_i childless
    rw [hasChild, Bool.not_eq_true, List.any_eq_false] at childless
    have notChild : (procs i).parent ≠ some p := by
      simpa using childless i (List.mem_finRange i)
    exact .inl (by rw [newParent, if_neg notChild])
  rcases wakeup_cases (some p) ((reparent initproc p procs p).parent.map .proc)
    (reparent initproc p procs) i with same | ⟨asleep, woken⟩
  · rw [orphan, same]
    exact reparented
  rcases reparented with pre | ⟨sleeping, pre⟩
  · rw [pre] at asleep woken
    exact .inr ⟨asleep, woken⟩
  · rw [pre] at woken
    exact .inr ⟨sleeping, woken⟩

/-- A process that changes its state in a step of another one is not in the scheduler's hands. -/
structure Proc.Moves (x y : Proc) : Prop where
  usage : x.UsageOk → y.UsageOk
  change : (y.state = x.state ∧ y.context = x.context ∧ y.key = x.key) ∨
    (x.state.off ∧ (y.state.off ∨ y.state = .runnable))

namespace Proc.Moves

/-- Changes that touch neither the state nor the usage record. -/
theorem steady (state : y.state = x.state) (context : y.context = x.context)
    (usageTime : y.usageTime = x.usageTime) : x.Moves y := by
  refine ⟨fun ok inUse => ?_, .inl ⟨state, context, by rw [Proc.key, usageTime, Proc.key]⟩⟩
  rw [usageTime]
  exact ok (state ▸ inUse)

theorem refl (x : Proc) : x.Moves x := steady rfl rfl rfl

theorem wakes (sleeping : x.state = .sleeping) (state : y.state = .runnable)
    (usageTime : y.usageTime = x.usageTime) : x.Moves y := by
  refine ⟨fun ok _ => ?_, .inr ⟨by rw [sleeping]; rfl, .inr state⟩⟩
  rw [usageTime]
  exact ok (by simp [sleeping])

end Proc.Moves

theorem wakeup_moves (self : Option ProcId) (chan : Option Chan) (procs : ProcId → Proc)
    (i : ProcId) : (procs i).Moves (wakeup self chan procs i) := by
  rcases wakeup_cases self chan procs i with same | ⟨sleeping, woken⟩
  · rw [same]
    exact .refl _
  · rw [woken]
    exact .wakes sleeping rfl rfl

theorem orphan_moves (initproc p : ProcId) (procs : ProcId → Proc) (i : ProcId) :
    (procs i).Moves (orphan initproc p procs i) := by
  rcases orphan_cases initproc p procs i with same | ⟨sleeping, woken⟩
  · rw [same]
    exact .steady rfl rfl rfl
  · rw [woken]
    exact .wakes sleeping rfl rfl

theorem freeproc_moves (off : x.state.off) : x.Moves (freeproc x) :=
  ⟨fun _ inUse => absurd rfl inUse, .inr ⟨off, .inl rfl⟩⟩

theorem killProc_moves (x : Proc) : x.Moves (killProc x) := by
  by_cases sleeping : x.state = .sleeping
  · exact .wakes sleeping (by simp [killProc, sleeping]) rfl
  · exact .steady (by simp [killProc, sleeping]) rfl rfl

variable {i : ProcId} {deadline : Option UInt32}

namespace Kernel.Inv

variable (inv : s.Inv)
include inv

/-- A step that leaves the CPUs and the shared structures alone. -/
theorem quiet (cpus : s'.cpus = s.cpus) (pq : s'.pq = s.pq) (q : s'.q = s.q)
    (moves : ∀ p', (s.procs p').Moves (s'.procs p') ∨
      ∃ c, s.At p' (.cpu c) ∧ (Place.cpu c).Fits (s'.procs p') ∧ (s'.procs p').UsageOk)
    (forks : ForkInv s'.procs) : s'.Inv := by
  have places : ∀ p' a, s'.At p' a ↔ s.At p' a := by
    intro p' a
    cases a <;> simp [Kernel.At, cpus, pq, q]
  refine ⟨fun p' a b atA atB => ?_, fun p' a atA => ?_, fun p' passed => ?_, ?_, ?_, ?_, ?_,
    fun p' => ?_, forks⟩
  · exact inv.unique p' a b ((places p' a).mp atA) ((places p' b).mp atB)
  · have pre := (places p' a).mp atA
    rcases moves p' with moved | ⟨_, running, fits, _⟩
    · have fits := inv.fits p' a pre
      rcases moved.change with ⟨state, context, _⟩ | ⟨off, _⟩
      · cases a with
        | chosen _ src =>
          cases src <;> simpa [Place.Fits, state] using fits
        | _ => simpa [Place.Fits, state, context] using fits
      · rw [fits.not_off] at off
        cases off
    · rw [inv.unique p' a _ pre running]
      exact fits
  · rcases moves p' with moved | ⟨c', running, _⟩
    · rcases moved.change with ⟨state, _⟩ | ⟨_, off | runnable⟩
      · rw [state] at passed
        obtain ⟨a, atA⟩ := inv.parked p' passed
        exact ⟨a, (places p' a).mpr atA⟩
      · rw [passed] at off
        cases off
      · rw [passed] at runnable
        cases runnable
    · exact ⟨.cpu c', (places p' _).mpr running⟩
  · rw [pq]
    exact inv.heapNodup
  · rw [q]
    exact inv.queueNodup
  · rw [q]
    exact inv.queueValid
  · rw [cpus]
    exact inv.idle
  · rcases moves p' with moved | ⟨_, _, _, usage⟩
    · exact moved.usage (inv.usage p')
    · exact usage

/-- A process that executes is not `USED`, nor in any other state in which the
scheduler does not refer to it. -/
theorem running_not_off (running : (s.cpus c).proc = some p) :
    (s.procs p).state.off = false := (inv.fits p (.cpu c) running).not_off

/-- The executing process goes on at another point of its code. -/
theorem fits_running (running : (s.cpus c).proc = some p)
    (notTrap : (s.procs p).context ≠ .trapYield) : (s.procs p).state = .running := by
  rcases inv.fits p (.cpu c) running with state | ⟨_, context⟩
  · exact state
  · exact absurd context notTrap

/-- The executing process changes only itself. -/
theorem quietOwn (running : (s.cpus c).proc = some p)
    (fits : (Place.cpu c).Fits x) (usage : x.UsageOk)
    (forking : x.context.forking = (s.procs p).context.forking ∨ x.context.forking = none) :
    (s.setProc p x).Inv := by
  refine inv.quiet rfl rfl rfl (fun p' => ?_) (inv.forks.update ?_ forking)
  · by_cases same : p' = p
    · subst same
      rw [Kernel.setProc_procs, update_self]
      exact .inr ⟨c, running, fits, usage⟩
    · rw [Kernel.setProc_procs, update_of_ne same]
      exact .inl (.refl _)
  · intro used
    have notOff := inv.running_not_off running
    rw [used] at notOff
    cases notOff

variable {cont : Cont}

/-- The executing process changes another one and goes on at another point of
its code. -/
theorem quietOther (running : (s.cpus c).proc = some p) {nextpid : Int}
    (ne : i ≠ p) (notTrap : (s.procs p).context ≠ .trapYield) (moves : (s.procs i).Moves y)
    (forks : ForkInv (update (update s.procs i y) p { s.procs p with context := cont })) :
    (({ s with nextpid := nextpid }.setProc i y).setCont p cont).Inv := by
  have state := inv.fits_running running notTrap
  have procs : (({ s with nextpid := nextpid }.setProc i y).setCont p cont).procs =
      update (update s.procs i y) p { s.procs p with context := cont } := by
    simp [Kernel.setCont, Ne.symm ne]
  refine inv.quiet rfl rfl rfl (fun p' => ?_) (by rw [procs]; exact forks)
  rw [procs]
  by_cases same : p' = p
  · subst same
    rw [update_self]
    exact .inr ⟨c, running, .inl state, inv.usage p'⟩
  rw [update_of_ne same]
  by_cases same' : p' = i
  · subst same'
    rw [update_self]
    exact .inl moves
  · rw [update_of_ne same']
    exact .inl (.refl _)

/-- The same where the other process may be the executing one itself. -/
theorem quietAny (running : (s.cpus c).proc = some p)
    (plain : (s.procs p).context.plain) (after : cont.forking = none)
    (moves : (s.procs i).Moves y) (notUsed : (s.procs i).state = .used → y.state = .used)
    (context : y.context = (s.procs i).context) : ((s.setProc i y).setCont p cont).Inv := by
  have notTrap : (s.procs p).context ≠ .trapYield := by
    intro trap
    rw [trap] at plain
    cases plain
  by_cases same : i = p
  · subst same
    have state := inv.fits_running running notTrap
    have steady : y.state = .running := by
      rcases moves.change with ⟨kept, _⟩ | ⟨off, _⟩
      · rw [kept, state]
      · rw [state] at off
        cases off
    have merged : (s.setProc i y).setCont i cont = s.setProc i { y with context := cont } := by
      simp [Kernel.setCont, Kernel.setProc]
    rw [merged]
    refine inv.quietOwn running (.inl steady) ?_ (.inr after)
    exact moves.usage (inv.usage i)
  · refine inv.quietOther running same notTrap moves ?_
    exact inv.forks.updatePair same notUsed (fun used => used) (.inl (by rw [context]))
      (.inr after)

end Kernel.Inv

/-- Taking a free entry for a new process. -/
theorem ForkInv.taken (inv : ForkInv procs) {pid : Int} {frame : Trapframe} (ne : i ≠ p)
    (free : (procs i).state = .unused) (pre : (procs p).context.forking = none) :
    ForkInv (Function.update (Function.update procs i (newProc pid frame (procs i))) p
      { procs p with context := .forkParent deadline i }) := by
  have forkingOf : ∀ p' np, (Function.update (Function.update procs i
      (newProc pid frame (procs i))) p { procs p with context := .forkParent deadline i }
        p').context.forking = some np →
      (p' = p ∧ np = i) ∨ (procs p').context.forking = some np := by
    intro p' np forks
    by_cases same : p' = p
    · subst same
      rw [update_self] at forks
      exact .inl ⟨rfl, (Option.some.inj forks).symm⟩
    rw [update_of_ne same] at forks
    by_cases same' : p' = i
    · subst same'
      rw [update_self] at forks
      cases forks
    · rw [update_of_ne same'] at forks
      exact .inr forks
  have notForked : ∀ p', (procs p').context.forking ≠ some i := by
    intro p' forks
    have used := inv.used p' i forks
    rw [free] at used
    cases used
  refine ⟨fun p' np forks => ?_, fun p₁ p₂ np forks₁ forks₂ => ?_⟩
  · rcases forkingOf p' np forks with ⟨rfl, rfl⟩ | old
    · rw [update_of_ne ne, update_self]
      rfl
    have used := inv.used p' np old
    by_cases same : np = p
    · subst same
      rw [update_self]
      exact used
    rw [update_of_ne same]
    by_cases same' : np = i
    · subst same'
      exact absurd old (notForked p')
    · rwa [update_of_ne same']
  rcases forkingOf p₁ np forks₁ with ⟨rfl, rfl⟩ | old₁
  · rcases forkingOf p₂ np forks₂ with ⟨rfl, _⟩ | old₂
    · rfl
    · exact absurd old₂ (notForked p₂)
  · rcases forkingOf p₂ np forks₂ with ⟨rfl, rfl⟩ | old₂
    · exact absurd old₁ (notForked p₁)
    · exact inv.unique p₁ p₂ np old₁ old₂

/-- The end of a `fork`. -/
theorem ForkInv.readied (inv : ForkInv procs) {np : ProcId} (ne : np ≠ p)
    (forking : (procs p).context.forking = some np) (context : y.context = (procs np).context) :
    ForkInv (Function.update (Function.update procs np y) p
      { procs p with context := .kernel }) := by
  have forkingOf : ∀ p' np', (Function.update (Function.update procs np y) p
      { procs p with context := .kernel } p').context.forking = some np' →
      p' ≠ p ∧ (procs p').context.forking = some np' := by
    intro p' np' forks
    by_cases same : p' = p
    · subst same
      rw [update_self] at forks
      cases forks
    refine ⟨same, ?_⟩
    rw [update_of_ne same] at forks
    by_cases same' : p' = np
    · subst same'
      rw [update_self, context] at forks
      exact forks
    · rwa [update_of_ne same'] at forks
  refine ⟨fun p' np' forks => ?_, fun p₁ p₂ np' forks₁ forks₂ => ?_⟩
  · obtain ⟨other, old⟩ := forkingOf p' np' forks
    have used := inv.used p' np' old
    by_cases same : np' = p
    · subst same
      rw [update_self]
      exact used
    rw [update_of_ne same]
    by_cases same' : np' = np
    · subst same'
      exact absurd (inv.unique p' p np' old forking) other
    · rwa [update_of_ne same']
  · exact inv.unique p₁ p₂ np' (forkingOf p₁ np' forks₁).2 (forkingOf p₂ np' forks₂).2

theorem firstZombie_spec {pp : ProcId} (found : firstZombie procs p = some pp) :
    (procs pp).parent = some p ∧ (procs pp).state = .zombie := by
  simpa using List.find?_some found

instance (x : Proc) (t : ThreadId) : Decidable (x.LastThread t) :=
  inferInstanceAs (Decidable (∀ t', t.val < t'.val → (x.threads t').state ≠ .runnable))

/-- The step makes the thread loop go on to another thread of a process that
has given up the CPU. -/
def Kernel.reenters (s : Kernel n) : Action n → Bool
  | .proc c act =>
    match s.executing c with
    | some (p, some t) => s.givesUp p act && !decide ((s.procs p).LastThread t)
    | _ => false
  | _ => false

theorem wakeup_forks (inv : ForkInv procs) (self : Option ProcId) (chan : Option Chan) :
    ForkInv (wakeup self chan procs) := by
  refine inv.pointwise (fun p used => ?_) fun p => .inl ?_
  · simp [wakeup, used]
  rcases wakeup_cases self chan procs p with same | ⟨_, woken⟩
  · rw [same]
  · rw [woken]

theorem orphan_forks (inv : ForkInv procs) (initproc p : ProcId) :
    ForkInv (orphan initproc p procs) := by
  refine inv.pointwise (fun i used => ?_) fun i => .inl ?_
  · rcases orphan_cases initproc p procs i with same | ⟨sleeping, _⟩
    · rw [same, used]
    · cases sleeping.symm.trans used
  · rcases orphan_cases initproc p procs i with same | ⟨_, woken⟩
    · rw [same]
    · rw [woken]

theorem Proc.Readied.facts (readied : x.Readied deadline y) :
    y.state = .runnable ∧ y.context = x.context ∧ (y.usageTime = none → x.usageTime = none) := by
  cases deadline with
  | none =>
    rw [show y = _ from readied]
    exact ⟨rfl, rfl, id⟩
  | some =>
    obtain ⟨_, _, rfl⟩ := readied
    exact ⟨rfl, rfl, nofun⟩

namespace Kernel.Inv

theorem exit (inv : s.Inv) (running : (s.cpus c).proc = some p) (notInit : p ≠ s.initproc)
    (t : Option ThreadId) (status : Int) : (s.finish c p t (s.exit p status)).Inv := by
  have orphaned : { s with procs := orphan s.initproc p s.procs }.Inv :=
    inv.quiet rfl rfl rfl (fun i => .inl (orphan_moves _ _ _ i)) (orphan_forks inv.forks _ _)
  rw [Kernel.exit, if_neg notInit]
  exact orphaned.sched running (.inr (.inr rfl)) (.inl rfl) fun _ _ notZombie => absurd rfl notZombie

/-- One action of the executing process keeps the invariant, unless it makes
the thread loop re-enter the process. -/
theorem procStep (inv : s.Inv) {act : ProcAction} {effect : Effect n} {t : Option ThreadId}
    (running : (s.cpus c).proc = some p) (step : ProcStep s p act effect)
    (last : ∀ t', t = some t' → s.givesUp p act → (s.procs p).LastThread t') :
    (s.finish c p t effect).Inv := by
  have notOff := inv.running_not_off running
  have distinct : ∀ {i : ProcId}, (s.procs i).state.off → i ≠ p := by
    rintro i off rfl
    rw [notOff] at off
    cases off
  have usage : (s.procs p).usageTime ≠ none := inv.usage p (by
    intro unused
    rw [unused] at notOff
    cases notOff)
  have notTrap : (s.procs p).context.plain → (s.procs p).context ≠ .trapYield := by
    intro plain trap
    rw [trap] at plain
    cases plain
  cases step with
  | moves _ pre after =>
    exact inv.quietOwn running (.inl (inv.fits_running running (notTrap pre)))
      (fun _ => usage) (.inr (Cont.forking_of_plain after))
  | own _ change =>
    refine inv.quietOwn running (.inl ?_) (fun _ => ?_) (.inr (Cont.forking_of_plain change.after))
    · rw [change.state]
      exact inv.fits_running running (notTrap change.pre)
    intro missing
    have limits := change.limits
    rw [missing] at limits
    exact usage (Option.map_eq_none_iff.mp limits.symm)
  | expired =>
    exact inv.quietOwn running (.inr ⟨rfl, rfl⟩) (fun _ => by simp) (.inr rfl)
  | taken _ index _ searching free =>
    have ne : index ≠ p := distinct (by rw [free]; rfl)
    refine inv.quietOther running ne (by rw [searching]; simp) ?_
      (inv.forks.taken ne free (by rw [searching]; rfl))
    exact ⟨fun _ _ => by simp [newProc], .inr ⟨by rw [free]; rfl, .inl rfl⟩⟩
  | refused _ index searching free =>
    have off : (s.procs index).state.off := by rw [free]; rfl
    refine inv.quietOther running (distinct off) (by rw [searching]; simp) (freeproc_moves off)
      (inv.forks.updatePair (distinct off) ?_ (fun used => used) (.inl rfl) (.inr rfl))
    intro used
    cases free.symm.trans used
  | forkParent _ np forking =>
    have used : (s.procs np).state = .used := inv.forks.used p np (by rw [forking]; rfl)
    have ne : np ≠ p := distinct (by rw [used]; rfl)
    exact inv.quietOther running ne (by rw [forking]; simp) (.steady rfl rfl rfl)
      (inv.forks.updatePair ne (fun used => used) (fun used => used) (.inl rfl)
        (.inl (by rw [forking]; rfl)))
  | forkRunnable _ np _ forking readied =>
    have used : (s.procs np).state = .used := inv.forks.used p np (by rw [forking]; rfl)
    have ne : np ≠ p := distinct (by rw [used]; rfl)
    have facts := readied.facts
    refine inv.quietOther running ne (by rw [forking]; simp) ?_
      (inv.forks.readied ne (by rw [forking]; rfl) facts.2.1)
    refine ⟨fun ok _ => ?_, .inr ⟨by rw [used]; rfl, .inr facts.1⟩⟩
    intro missing
    exact ok (by simp [used]) (facts.2.2 missing)
  | reaps pp found waiting =>
    have zombie := (firstZombie_spec found).2
    have off : (s.procs pp).state.off := by rw [zombie]; rfl
    have plain : (s.procs p).context.plain := by
      rcases waiting with context | context <;> rw [context] <;> rfl
    refine inv.quietOther running (distinct off) (notTrap plain) (freeproc_moves off)
      (inv.forks.updatePair (distinct off) ?_ (fun used => used) (.inl rfl) (.inr rfl))
    intro used
    cases zombie.symm.trans used
  | kills _ _ killing =>
    refine inv.quietAny running (by rw [killing]; rfl) rfl (killProc_moves _) ?_ rfl
    intro used
    simp [killProc, used]
  | storesQuota _ _ _ storing has =>
    refine inv.quietAny running (by rw [storing]; rfl) rfl ?_ (fun used => used) rfl
    exact ⟨fun _ _ => by simp, .inl ⟨rfl, rfl, by simp [Proc.key, has]⟩⟩
  | yields _ gives same =>
    exact inv.sched running (.inl rfl) (.inl same)
      fun t' threaded _ => last t' threaded gives
  | sleeps _ _ gives _ _ after =>
    exact inv.sched running (.inr (.inl rfl)) (.inr (Cont.forking_of_plain after))
      fun t' threaded _ => last t' threaded gives
  | exits status _ notInit => exact inv.exit running notInit t status
  | panics reason =>
    refine inv.panic reason fun p' src chosen => ?_
    have idle : (s.cpus c).proc = none := inv.idle c (by rw [chosen]; rfl)
    rw [running] at idle
    cases idle

/-- Waking processes keeps the invariant. -/
theorem wakeup (inv : s.Inv) (self : Option ProcId) (chan : Option Chan) (ticks : UInt32)
    (stale : Nat) :
    { s with ticks := ticks, stale := stale, procs := CustomXv6.wakeup self chan s.procs }.Inv :=
  inv.quiet rfl rfl rfl (fun i => .inl (wakeup_moves self chan s.procs i))
    (wakeup_forks inv.forks self chan)

/-- Every step of the kernel that does not re-enter a process keeps the
invariant. -/
theorem step (inv : s.Inv) {act : Action n} (leaves : s.reenters act = false)
    (ran : s.step act = some s') : s'.Inv := by
  cases step_cases ran with
  | scheduler step => exact inv.schedStep step
  | tick => exact inv.quiet rfl rfl rfl (fun _ => .inl (.refl _)) inv.forks
  | wakes => exact inv.wakeup _ _ _ _
  | proc runs step =>
    refine inv.procStep (exec_running runs).1 step ?_
    rintro _ rfl gives
    simpa [Kernel.reenters, runs, gives] using leaves

end Kernel.Inv

/-- The invariant holds in every run that does not re-enter a process. -/
theorem reached_inv
    (run : Run Kernel.step (fun s act => s.reenters act = false) (boot n) s) : s.Inv :=
  run.invariant boot_inv fun inv leaves ran => inv.step leaves ran

end CustomXv6

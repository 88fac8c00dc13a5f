/-
Module: CustomXv6.Kernel.FailedCalls
Purpose: What create_thread, fork, fork_deadline and exec leave behind when they fail.
Trusted boundary: human-reviewed spec
Main exports: createThread_atomic, fork_fails_cleanly, exec_all_or_nothing
-/
import CustomXv6.Kernel.PageConservation
import CustomXv6.Kernel.Threads

namespace CustomXv6

open Hoare PageHeap Transition
open Function

namespace Pages

/-!
A call that leaves the free list as it is leaves the set of allocated pages as it is.
-/

/-- A slot that holds a thread that can run, with a trapframe that is one of `pages`. -/
structure HoldsThread (thread : MemThread) (id : Int) (pages : List UInt64) : Prop where
  state : thread.state = .runnable
  id : thread.id = id
  trapframe : ∃ page ∈ pages, thread.trapframe = some page

/-- The outcome of a successful call with the result `tid`: the slot `t` was free
and holds the new thread, with a page taken from the front of the free list.  Where
the process had no current thread, slot 0 holds the calling code now. -/
structure Created (p : MemProc) (vm : Vm) (t : ThreadId) (tid : Int) (p' : MemProc) (vm' : Vm) :
    Prop where
  free : (p.threads t).state = .free
  result : tid = t.val + 1
  pages : ∃ taken, vm.freelist = taken ++ vm'.freelist ∧ HoldsThread (p'.threads t) tid taken ∧
    (p.currentThread ≠ none → taken.length = 1 ∧ p'.currentThread = p.currentThread ∧
      ∀ u, u ≠ t → p'.threads u = p.threads u) ∧
    (p.currentThread = none → taken.length = 2 ∧ p'.currentThread = some 0 ∧ t ≠ 0 ∧
      HoldsThread (p'.threads 0) 1 taken ∧ ∀ u, u ≠ t → u ≠ 0 → p'.threads u = p.threads u)

/-- Slots that are free, and slot 0 if it is to be used for the calling code, have no
trapframe. -/
def Frameless (p : MemProc) : Prop :=
  ∀ t, (p.threads t).state = .free ∨ p.currentThread = none ∧ t = 0 → (p.threads t).trapframe = none

/-- The first call gets a page for the calling code, and then no second page or no slot. -/
def Strands (p : MemProc) (vm : Vm) : Prop :=
  p.currentThread = none ∧ vm.freelist ≠ [] ∧
    (vm.freelist.length = 1 ∨ ∀ t, t ≠ 0 → (p.threads t).state ≠ .free)

/-- Slot 0 once it holds the calling code. -/
def mainThread (page : UInt64) : MemThread where
  state := .runnable
  trapframe := some page
  id := 1
  join := 0

section Create

variable {L : Layout} {p : MemProc} {vm : Vm}

/-- `kalloc` takes the first page of the free list, if there is one. -/
theorem kalloc_takes {fail : VmPanic → Prop} :
    wp kalloc (fun taken vm' => vm.freelist = taken.toList ++ vm'.freelist ∧
      (taken = none → vm.freelist = [])) fail vm := by
  unfold kalloc
  simp only [wp_bind, wp_get]
  cases list : vm.freelist with
  | nil => exact ⟨list.symm, fun _ => rfl⟩
  | cons =>
    exact ⟨rfl, (by simp)⟩

theorem MemProc.setThread_same (p : MemProc) {t : ThreadId} (frame : (p.threads t).trapframe = none) :
    p.setThread t { p.threads t with trapframe := none } = p := by
  rw [← frame, MemProc.setThread, update_eq_self]

/-- The second half of a call whose process had a current thread, or whose first
half has made one. -/
theorem createSecond_cases (main : Bool)
    (frames : ∀ t, (p.threads t).state = .free → (p.threads t).trapframe = none)
    (enough : main = true → vm.freelist ≠ []) :
    wp (createSecond L p main) (fun result vm' =>
      (result = (p, -1) ∧ vm'.freelist = vm.freelist ∧
        (main = true → ∀ t, (p.threads t).state ≠ .free)) ∨
      ∃ t page, (p.threads t).state = .free ∧ vm.freelist = page :: vm'.freelist ∧
        result = (p.setThread t { p.threads t with
          trapframe := some page, id := t.val + 1, state := .runnable }, (t.val : Int) + 1))
      Never vm := by
  unfold createSecond
  cases found : (List.finRange maxThread).find? fun t => (p.threads t).state = .free with
  | none =>
    refine .inl ⟨rfl, rfl, fun _ t free => ?_⟩
    have absent := List.find?_eq_none.mp found t (List.mem_finRange t)
    exact absent (decide_eq_true free)
  | some t =>
    have free : (p.threads t).state = .free := by
      have here := List.find?_some found
      exact of_decide_eq_true here
    apply wp_seq kalloc_takes
    rintro taken _ ⟨pages, without⟩
    cases taken with
    | some page => exact .inr ⟨t, page, free, pages, rfl⟩
    | none =>
      cases main with
      | true => exact (enough rfl (without rfl)).elim
      | false =>
        rw [p.setThread_same (frames t free)]
        exact .inl ⟨rfl, pages.symm, nofun⟩

/-- The call of a process that has a current thread. -/
theorem createThread_later {cur : ThreadId} (later : p.currentThread = some cur)
    (frames : ∀ t, (p.threads t).state = .free → (p.threads t).trapframe = none) :
    wp (createThread L p) (fun result vm' =>
      (result = (p, -1) ∧ vm'.freelist = vm.freelist) ∨
        ∃ t, Created p vm t result.2 result.1 vm') Never vm := by
  rw [createThread, later]
  apply wp_imp (createSecond_cases false frames (by simp))
  rintro ⟨_, _⟩ _ (⟨same, pages, _⟩ | ⟨t, page, free, pages, made⟩)
  · exact .inl ⟨same, pages⟩
  obtain ⟨rfl, rfl⟩ := Prod.mk.inj made
  refine .inr ⟨t, free, rfl, [page], pages, ⟨?_, ?_, page, List.mem_singleton_self page, ?_⟩,
    fun _ => ⟨rfl, rfl, fun u other => setThread_of_ne other _⟩, fun absurd => ?_⟩
  · rw [setThread_self]
  · rw [setThread_self]
  · rw [setThread_self]
  · rw [later] at absurd
    cases absurd

/-- The first call of a process, with two free pages and a free slot besides slot 0. -/
theorem createThread_first {spare : ThreadId} (first : p.currentThread = none)
    (frames : ∀ t, (p.threads t).state = .free → (p.threads t).trapframe = none)
    (enough : 2 ≤ vm.freelist.length) (other : spare ≠ 0) (free : (p.threads spare).state = .free) :
    wp (createThread L p) (fun result vm' => ∃ t, Created p vm t result.2 result.1 vm')
      Never vm := by
  rw [createThread, first]
  apply wp_seq kalloc_takes
  rintro taken vm1 ⟨pages, without⟩
  cases taken with
  | none =>
    rw [without rfl] at enough
    exact absurd enough (by decide)
  | some main =>
    change wp (createSecond L { p.setThread 0 (mainThread main) with currentThread := some 0 }
      true) _ _ _
    generalize entered :
      ({ p.setThread 0 (mainThread main) with currentThread := some 0 } : MemProc) = p1
    have slot0 : p1.threads 0 = mainThread main := by
      rw [← entered]
      exact @setThread_self p 0 (mainThread main)
    have others : ∀ t, t ≠ 0 → p1.threads t = p.threads t := by
      intro t apart
      rw [← entered]
      exact setThread_of_ne apart _
    have cur : p1.currentThread = some 0 := by rw [← entered]
    have notSlot0 : ∀ t, (p1.threads t).state = .free → t ≠ 0 := by
      rintro t isFree rfl
      rw [slot0] at isFree
      cases isFree
    have second : vm1.freelist ≠ [] := by
      intro empty
      rw [pages, empty] at enough
      exact Nat.not_succ_le_self 1 enough
    apply wp_imp (createSecond_cases true (fun t isFree => ?_) fun _ => second)
    · rintro ⟨_, _⟩ _ (⟨_, _, full⟩ | ⟨t, page, isFree, pages', made⟩)
      · refine (full rfl spare ?_).elim
        rw [others spare other]
        exact free
      obtain ⟨rfl, rfl⟩ := Prod.mk.inj made
      have apart := notSlot0 t isFree
      refine ⟨t, ?_, rfl, [main, page], ?_, ⟨?_, ?_, page, by simp, ?_⟩, fun absurd => ?_,
        fun _ => ⟨rfl, cur, apart, ?_, fun u notT not0 => ?_⟩⟩
      · rwa [others t apart] at isFree
      · rw [pages, pages']
        rfl
      · rw [setThread_self]
      · rw [setThread_self]
      · rw [setThread_self]
      · exact (absurd first).elim
      · rw [setThread_of_ne (Ne.symm apart), slot0]
        exact ⟨rfl, rfl, main, by simp, rfl⟩
      · rw [setThread_of_ne notT, others u not0]
    · have apart := notSlot0 t isFree
      rw [others t apart] at isFree ⊢
      exact frames t isFree

/-- The first call of a process when there is no page. -/
theorem createThread_noPage (first : p.currentThread = none) (empty : vm.freelist = [])
    (frame : (p.threads 0).trapframe = none) :
    wp (createThread L p) (fun result vm' => result = (p, -1) ∧ vm'.freelist = vm.freelist)
      Never vm := by
  rw [createThread, first]
  apply wp_seq kalloc_takes
  rintro taken _ ⟨pages, _⟩
  cases taken with
  | none =>
    rw [p.setThread_same frame]
    exact ⟨rfl, pages.symm⟩
  | some =>
    rw [empty] at pages
    cases pages

/-- A first call that strands leaves slot 0 as the current thread. -/
theorem createThread_strands (strands : Strands p vm) :
    wp (createThread L p) (fun result _ => result.2 = -1 ∧ result.1.currentThread = some 0)
      (fun _ => True) vm := by
  obtain ⟨first, any, short⟩ := strands
  rw [createThread, first]
  apply wp_seq kalloc_takes
  rintro taken vm1 ⟨pages, without⟩
  cases taken with
  | none => exact absurd (without rfl) any
  | some main =>
    change wp (createSecond L { p.setThread 0 (mainThread main) with currentThread := some 0 }
      true) _ _ _
    unfold createSecond
    split
    · exact ⟨rfl, rfl⟩
    rename_i t found
    have here := List.find?_some found
    have free : ((p.setThread 0 (mainThread main)).threads t).state = .free :=
      of_decide_eq_true here
    have other : t ≠ 0 := by
      rintro rfl
      rw [setThread_self] at free
      cases free
    apply wp_seq kalloc_takes
    rintro taken vm2 ⟨pages', _⟩
    cases taken with
    | some page =>
      exfalso
      rcases short with one | full
      · rw [pages, pages'] at one
        simp at one
      · rw [setThread_of_ne other] at free
        exact full t other free
    | none =>
      have freed : ∀ thread, wp (freethread L thread) (fun _ _ => True) (fun _ => True) vm2 := by
        intro thread
        unfold wp
        split <;> trivial
      exact wp_seq (freed _) fun _ _ _ => ⟨rfl, rfl⟩

/-- `create_thread` returns -1 with the threads and the free pages as they were, or the id of the
slot that holds the new thread, exactly if it does not strand. -/
theorem createThread_atomic (frames : Frameless p) :
    (∃ p' tid vm', createThread L p vm = .ok ((p', tid), vm') ∧
      (tid = -1 ∧ p'.threads = p.threads ∧ p'.currentThread = p.currentThread ∧
          vm'.freelist = vm.freelist ∨
        0 < tid ∧ ∃ t, Created p vm t tid p' vm')) ↔ ¬ Strands p vm := by
  have free : ∀ t, (p.threads t).state = .free → (p.threads t).trapframe = none :=
    fun t isFree => frames t (.inl isFree)
  constructor
  · rintro ⟨p', tid, vm', run, outcome⟩ strands
    have stranded := createThread_strands (L := L) strands
    rw [wp, run] at stranded
    obtain ⟨rfl, cur⟩ := stranded
    rcases outcome with ⟨_, _, same, _⟩ | ⟨pos, _⟩
    · rw [same, strands.1] at cur
      cases cur
    · exact absurd pos (by decide)
  intro safe
  have spec : wp (createThread L p) (fun result vm' =>
      (result = (p, -1) ∧ vm'.freelist = vm.freelist) ∨
        ∃ t, Created p vm t result.2 result.1 vm') (fun _ => False) vm := by
    cases cur : p.currentThread with
    | some => exact createThread_later cur free
    | none =>
      by_cases empty : vm.freelist = []
      · apply wp_imp (createThread_noPage cur empty (frames 0 (.inr ⟨cur, rfl⟩)))
        exact fun _ _ failed => .inl failed
      have enough : vm.freelist.length ≠ 1 := fun one => safe ⟨cur, empty, .inl one⟩
      obtain ⟨spare, other, spareFree⟩ : ∃ t, t ≠ 0 ∧ (p.threads t).state = .free := by
        by_contra full
        exact safe ⟨cur, empty, .inr fun t other isFree => full ⟨t, other, isFree⟩⟩
      have least := List.length_pos_iff.mpr empty
      apply wp_imp (createThread_first cur free (by omega) other spareFree)
      exact fun _ _ new => .inr new
  obtain ⟨⟨p', tid⟩, vm', run, failed | ⟨t, new⟩⟩ := exists_of_wp spec
  · obtain ⟨same, pages⟩ := failed
    cases same
    exact ⟨p, -1, vm', run, .inl ⟨rfl, rfl, rfl, pages⟩⟩
  · have result : tid = t.val + 1 := new.result
    exact ⟨p', tid, vm', run, .inr ⟨by omega, t, new⟩⟩

end Create

/-! ### A call with one page -/

def unthreaded : MemProc := { life := .live }

/-- A memory with the given free pages. -/
def memoryWith (pages : List UInt64) : Vm where
  freelist := pages
  mem := fun _ _ => 0

/-- With two free pages the first call makes two threads. -/
theorem createThread_atomic_two_pages :
    ∃ p' tid vm' t, createThread smallLayout unthreaded (memoryWith [samplePage 0, samplePage 1]) =
        .ok ((p', tid), vm') ∧
      Created unthreaded (memoryWith [samplePage 0, samplePage 1]) t tid p' vm' := by
  have safe : ¬ Strands unthreaded (memoryWith [samplePage 0, samplePage 1]) := by
    rintro ⟨_, _, one | full⟩
    · cases one
    · exact full 1 (by decide) rfl
  obtain ⟨p', tid, vm', run, failed | ⟨_, t, new⟩⟩ :=
    (@createThread_atomic smallLayout unthreaded _ fun _ _ => rfl).mpr safe
  · have ret : (createThread smallLayout unthreaded
        (memoryWith [samplePage 0, samplePage 1])).toOption.map (fun result => result.1.2) =
          some 2 := by decide +kernel
    rw [run, failed.1] at ret
    cases ret
  · exact ⟨p', tid, vm', t, run, new⟩

/-- With one free page the first call fails after the calling code has been made a thread, and
the process keeps the freed slot as its current thread. -/
theorem createThread_keeps_current :
    ∃ p' vm', createThread smallLayout unthreaded (memoryWith [samplePage 0]) =
        .ok ((p', -1), vm') ∧
      unthreaded.currentThread = none ∧ p'.currentThread = some 0 ∧
      (p'.threads 0).state = .free ∧ vm'.freelist = [samplePage 0] := by
  have checked : (createThread smallLayout unthreaded (memoryWith [samplePage 0])).toOption.any
      (fun result => decide (result.1.2 = -1 ∧ result.1.1.currentThread = some 0 ∧
        (result.1.1.threads 0).state = .free ∧ result.2.freelist = [samplePage 0])) = true := by
    decide +kernel
  cases run : createThread smallLayout unthreaded (memoryWith [samplePage 0]) with
  | error =>
    rw [run] at checked
    cases checked
  | ok result =>
    obtain ⟨⟨p', _⟩, vm'⟩ := result
    rw [run] at checked
    obtain ⟨rfl, cur, free, pages⟩ := of_decide_eq_true checked
    exact ⟨p', vm', rfl, rfl, cur, free, pages⟩

/-! ### The calls on threads with registers -/

/-- A thread slot without what its trapframe holds. -/
def threadSlot (t : Thread) : MemThread := ⟨t.state, t.trapframe.map fun _ => 0, t.id, t.join⟩

/-- The two models of a process have the same thread table. -/
structure SameThreads (p : MemProc) (q : Proc) : Prop where
  current : q.currentThread = p.currentThread
  slots : ∀ t, threadSlot (q.threads t) =
    { p.threads t with trapframe := (p.threads t).trapframe.map fun _ => 0 }

section SameThreads

variable {L : Layout} {p : MemProc} {q : Proc} {vm : Vm} {r a sp : UInt64}

theorem freethread_blank {x : MemThread} :
    wp (freethread L x) (fun freed _ => freed = {}) (fun _ => True) vm := by
  rw [freethread, wp_bind]
  unfold wp
  split
  · rfl
  · trivial

variable (same : SameThreads p q)
include same

theorem SameThreads.slot (t : ThreadId) : (q.threads t).state = (p.threads t).state ∧
    (q.threads t).id = (p.threads t).id ∧ (q.threads t).join = (p.threads t).join :=
  ⟨congrArg MemThread.state (same.slots t), congrArg MemThread.id (same.slots t),
    congrArg MemThread.join (same.slots t)⟩

theorem SameThreads.setThread {t : ThreadId} {x : MemThread} {y : Thread}
    (slot : threadSlot y = { x with trapframe := x.trapframe.map fun _ => 0 }) :
    SameThreads (p.setThread t x) (q.setThread t y) where
  current := same.current
  slots u := by
    have kept := same.slots u
    simp only [MemProc.setThread, Proc.setThread, update_apply]
    split <;> assumption

theorem createSecond_same (frame : q.trapframe ≠ none) (main : Bool) :
    wp (createSecond L p main) (fun res _ => ∃ kalloc q',
      q.createSecond r a sp kalloc main = some (res.2, q') ∧ SameThreads res.1 q')
      (fun _ => True) vm := by
  have search : q.firstFree =
      (List.finRange maxThread).find? fun t => (p.threads t).state = .free := by
    simp only [Proc.firstFree, same.slot]
  obtain ⟨_, isFrame⟩ := Option.ne_none_iff_exists'.mp frame
  simp only [createSecond, Proc.createSecond, search]
  cases (List.finRange maxThread).find? fun t => (p.threads t).state = .free with
  | none => exact ⟨true, q, rfl, same⟩
  | some t =>
    apply wp_seq kalloc_takes
    rintro taken _ -
    cases taken with
    | some page =>
      refine ⟨true, _, by simp [Proc.newThread, isFrame]; rfl, same.setThread ?_⟩
      simp [threadSlot, same.slot t]
    | none =>
      have cleared : SameThreads (p.setThread t { p.threads t with trapframe := none })
          (q.setThread t { q.threads t with trapframe := none }) := by
        apply same.setThread
        simp [threadSlot, same.slot t]
      dsimp only
      rw [cleared.current]
      cases main with
      | false => exact ⟨false, _, rfl, cleared⟩
      | true =>
        cases (p.setThread t { p.threads t with trapframe := none }).currentThread with
        | none => exact ⟨false, _, rfl, cleared⟩
        | some =>
          apply wp_seq freethread_blank
          rintro _ _ rfl
          refine ⟨false, _, rfl, cleared.setThread ?_⟩
          rfl

/-- `create_thread` does the same to both, for some outcomes of `kalloc`. -/
theorem createThread_same (frame : q.trapframe ≠ none) :
    wp (createThread L p) (fun res _ => ∃ kalloc1 kalloc2 q',
      q.createThread r a sp kalloc1 kalloc2 = some (res.2, q') ∧ SameThreads res.1 q')
      (fun _ => True) vm := by
  obtain ⟨registers, isFrame⟩ := Option.ne_none_iff_exists'.mp frame
  simp only [createThread, Proc.createThread, same.current]
  cases p.currentThread with
  | some =>
    apply wp_imp (createSecond_same same frame false)
    exact fun _ _ done => ⟨true, done⟩
  | none =>
    apply wp_seq kalloc_takes
    rintro taken _ -
    cases taken with
    | none =>
      refine ⟨false, true, _, rfl, same.setThread ?_⟩
      simp [threadSlot, same.slot 0]
    | some page =>
      have made : SameThreads { p.setThread 0 (mainThread page) with currentThread := some 0 }
          { q.setThread 0 ⟨.runnable, some registers, 1, 0⟩ with currentThread := some 0 } := by
        refine ⟨rfl, (same.setThread ?_).slots⟩
        rfl
      apply wp_imp (createSecond_same made frame true)
      rintro _ _ ⟨kalloc, q', called, alike⟩
      exact ⟨true, kalloc, q', by rw [Proc.makeMain, isFrame]; exact called, alike⟩

/-- So does `exit_t`. -/
theorem exitT_same (tid : Int) :
    wp (exitT L p tid) (fun res _ => ∃ q', SameThreads res.1 q' ∧
      q.exitT tid = if res.2 = 0 then .yields q' else .failed q') (fun _ => True) vm := by
  have woken : SameThreads (wakeJoined p tid) (q.wakeJoiners tid) := by
    refine ⟨same.current, fun t => ?_⟩
    have slot := same.slots t
    simp only [wakeJoined, Proc.wakeJoiners, Proc.wakeJoiner, same.slot t]
    split
    · simp_all [threadSlot]
    · exact slot
  simp only [exitT, Proc.exitT, Proc.lastWithId, woken.slot]
  cases (List.finRange maxThread).reverse.find? _ with
  | none => exact ⟨_, woken, rfl⟩
  | some target =>
    dsimp only
    split
    · exact ⟨_, woken, rfl⟩
    apply wp_seq freethread_blank
    rintro _ _ rfl
    refine ⟨_, woken.setThread ?_, rfl⟩
    rfl

end SameThreads

/-! ### fork -/

/-- The tables `fork` works on: memory, processes and files, the pids, and the
current directories with the references to the entries of the inode table. -/
structure ForkSys extends MemSys where
  pid : ProcId → Int
  nextpid : Int
  cwd : ProcId → Option Nat
  inodeRef : Nat → Nat

/-- `fork` and `fork_deadline`, with the value they return. -/
def ForkSys.fork (L : Layout) (p : ProcId) (s : ForkSys) : Except MemPanic (Int × ForkSys) := do
  let (done, mem) ← sysFork L p s.toMemSys
  match (List.finRange nproc).find? fun np => (s.procs np).life = .unused with
  | none => pure (-1, { s with toMemSys := mem })
  | some np =>
    if done then
      pure (s.nextpid,
        { toMemSys := mem
          pid := update s.pid np s.nextpid
          nextpid := s.nextpid + 1
          cwd := update s.cwd np (s.cwd p)
          inodeRef := fun i => if s.cwd p = some i then s.inodeRef i + 1 else s.inodeRef i })
    else
      -- `allocpid` has been called, and `freeproc` has cleared the pid
      pure (-1, { s with toMemSys := mem, pid := update s.pid np 0, nextpid := s.nextpid + 1 })

/-- The last element of a path: what follows the last `/`. -/
def lastElement : List UInt8 → List UInt8 → List UInt8
  | last, [] => last
  | last, c :: rest => lastElement (if c = 47 then rest else last) rest

/-- A process with its name and the user registers in `*p->trapframe`. -/
structure ExecProc extends MemProc where
  name : List UInt8
  regs : UserRegs

/-- `exec`, with the value it returns and the calls it makes. -/
def ExecProc.exec (L : Layout) (p : ExecProc) (path : List UInt8) (input : ExecInput) :
    VmM (ExecProc × Int × List ExecEvent) :=
  match p.trapframe, p.pagetable with
  | some trapframe, some oldpagetable => do
    match ← execPrepare L trapframe input with
    | (none, events) => pure (p, -1, events)
    | (some image, events) =>
      procFreepagetable L oldpagetable p.sz
      pure
        ({ p with
            pagetable := some image.pagetable
            sz := image.sz
            name := (lastElement path path).take 15
            regs := { p.regs with a1 := image.sp, epc := image.entry, sp := image.sp } },
          input.argv.length, events)
  | _, _ => throw .nullPointer

variable {L : Layout} {pool kernel : List UInt64} {start s : MemSys} {vm' : Vm}

/-- Code that gives back all it has taken leaves the free pages and everything that
somebody owns. -/
theorem MemSys.Inv.untouched (inv : s.Inv pool kernel) (isPool : Pool L pool)
    (moves : Moves 0 0 s.vm vm') : vm'.freelist.Perm s.vm.freelist ∧
      ∀ page, 0 < s.owns page + kernel.count page → vm'.mem page = s.vm.mem page := by
  have sep := inv.separate isPool
  rw [← zero_add (s.owns + _)] at sep
  exact ⟨List.perm_iff_count.mpr moves.conserve, fun page owned => moves.kept sep owned⟩

/-- Whatever calls were made before, a `fork` or `fork_deadline` that finds no slot leaves
everything as it is; one that finds a slot makes a whole child, or returns -1 with the slot
free, the pages it took free again and only `nextpid` advanced. -/
theorem fork_fails_cleanly (booted : Booted L pool kernel start) (s : ForkSys)
    (run : Run (MemSys.step L) (fun _ _ => True) start s.toMemSys) (p : ProcId)
    (live : (s.procs p).life = .live) :
    ((∀ np, (s.procs np).life ≠ .unused) ∧ s.fork L p = .ok (-1, s)) ∨
      ∃ np child made vm, (s.procs np).life = .unused ∧
        Pages.fork L (s.procs p) (s.procs np) s.vm = .ok ((child, made), vm) ∧
        (made = true → child.life = .live ∧ child.sz = (s.procs p).sz ∧ child.trapframe ≠ none ∧
          child.usageTime ≠ none ∧ child.pagetable ≠ none ∧ child.SpaceOk vm) ∧
        (made = false → child = {} ∧
          s.fork L p = .ok (-1,
            { s with
              vm := vm
              procs := update s.procs np {}
              parent := update s.parent np none
              pid := update s.pid np 0
              nextpid := s.nextpid + 1 }) ∧
          vm.freelist.Perm s.vm.freelist ∧
          ∀ page, 0 < s.owns page + kernel.count page → vm.mem page = s.vm.mem page) := by
  obtain ⟨isPool, inv⟩ := MemSys.Inv.run booted run
  have during : s.toMemSys.During pool kernel p := ⟨inv, live⟩
  cases found : (List.finRange nproc).find? fun np => (s.procs np).life = .unused with
  | none =>
    refine .inl ⟨fun np => ?_, ?_⟩
    · have used := List.find?_eq_none.mp found np (List.mem_finRange np)
      simpa using used
    have nothing : sysFork L p s.toMemSys = .ok (false, s.toMemSys) := by
      have ran : wp (sysFork L p) (fun done s' => done = false ∧ s' = s.toMemSys)
          (fun _ => False) s.toMemSys := by
        rw [sysFork, wp_bind, wp_get, found]
        exact ⟨rfl, rfl⟩
      obtain ⟨_, _, ran, rfl, rfl⟩ := exists_of_wp ran
      exact ran
    rw [ForkSys.fork, nothing, found]
    rfl
  | some np =>
    have unused : (s.procs np).life = .unused := by
      have here := List.find?_some found
      exact of_decide_eq_true here
    have empty : s.procs np = {} := (inv.procs np).unused unused
    obtain ⟨⟨child, made⟩, vm, ran, moves, ok, outcome⟩ :=
      exists_of_wp (fork_spec (inv.procs p) live (during.separate isPool))
    rw [← empty] at ran
    refine .inr ⟨np, child, made, vm, unused, ran, ?_, ?_⟩
    · rintro rfl
      obtain failed | ⟨_, childLive, size, usage⟩ := outcome
      · cases failed
      · obtain ⟨table, frame⟩ := ok.used (not_unused childLive)
        exact ⟨childLive, size, frame, usage, table, ok.space⟩
    rintro rfl
    obtain failed | ⟨never, _⟩ := outcome
    · cases failed
      have forked : wp (sysFork L p) (fun done s' => done = false ∧ s' =
          { s.toMemSys with
            vm := vm
            procs := update s.procs np {}
            parent := update s.parent np none }) (fun _ => False) s.toMemSys := by
        rw [sysFork, wp_bind, wp_get, found]
        rw [wp_bind, onProc, wp_bind, wp_get, wp_bind, wp_onVm, wp_ok ran]
        exact ⟨rfl, rfl⟩
      obtain ⟨_, _, done, rfl, rfl⟩ := exists_of_wp forked
      refine ⟨rfl, ?_, inv.untouched isPool moves⟩
      rw [ForkSys.fork, done, found]
      rfl
    · cases never

/-- The first process has taken most of the memory, and cannot fork. -/
theorem fork_fails_cleanly_small :
    ∃ s s' : ForkSys, (s.procs 0).life = .live ∧ s.fork smallLayout 0 = .ok (-1, s') ∧
      s'.vm.freelist.Perm s.vm.freelist := by
  obtain ⟨_, kernel, _, s, booted, run, live, fails⟩ := exists_smallRun smallRun
    (P := fun s => (s.procs 0).life = .live ∧ ∀ np, (s.procs np).life = .unused →
      (fork smallLayout (s.procs 0) (s.procs np) s.vm).toOption.map (·.1.2) = some false)
    (by decide +kernel)
  rcases fork_fails_cleanly booted ⟨s, fun _ => 1, 2, fun _ => none, fun _ => 0⟩ run 0 live with
    ⟨_, forked⟩ | ⟨np, _, _, _, unused, ran, _, failed⟩
  · exact ⟨_, _, live, forked, .rfl⟩
  have notMade := fails np unused
  rw [ran] at notMade
  cases notMade
  obtain ⟨_, forked, perm, _⟩ := failed rfl
  exact ⟨_, _, live, forked, perm⟩

/-- Whatever calls were made before, and for every file, path and arguments, `exec` comes to
the point where it commits or fails without a panic, with its log operation ended once and the
inode it locked released.  If it fails it returns -1 and no process has changed. -/
theorem exec_all_or_nothing (booted : Booted L pool kernel start)
    (run : Run (MemSys.step L) (fun _ _ => True) start s) (p : ProcId) (q : ExecProc)
    (isProc : q.toMemProc = s.procs p) (live : (s.procs p).life = .live) (path : List UInt8)
    (input : ExecInput) : ∃ trapframe image events vm',
      q.trapframe = some trapframe ∧
      execPrepare L trapframe input s.vm = .ok ((image, events), vm') ∧ Settled events ∧
      (image = none → q.exec L path input s.vm = .ok ((q, -1, events), vm') ∧
        vm'.freelist.Perm s.vm.freelist ∧
        ∀ page, 0 < s.owns page + kernel.count page → vm'.mem page = s.vm.mem page) := by
  obtain ⟨isPool, inv⟩ := MemSys.Inv.run booted run
  obtain ⟨table, frame⟩ := (inv.procs p).used (not_unused live)
  rw [← isProc] at table frame
  obtain ⟨trapframe, isFrame⟩ := Option.ne_none_iff_exists'.mp frame
  obtain ⟨_, isTable⟩ := Option.ne_none_iff_exists'.mp table
  have sep := inv.separate isPool
  rw [← zero_add (s.owns + _)] at sep
  obtain ⟨⟨image, events⟩, vm', ran, fixed, made⟩ :=
    exists_of_wp (execPrepare_spec trapframe input sep.left)
  refine ⟨trapframe, image, events, vm', isFrame, ran, fixed, ?_⟩
  rintro rfl
  refine ⟨?_, inv.untouched isPool made⟩
  have failed : wp (q.exec L path input) (fun result after => result = (q, -1, events) ∧ after = vm')
      (fun _ => False) s.vm := by
    rw [ExecProc.exec, isFrame, isTable]
    rw [wp_bind, wp_ok ran]
    exact ⟨rfl, rfl⟩
  obtain ⟨_, _, ret, rfl, rfl⟩ := exists_of_wp failed
  exact ret

/-- A program of one page, whose single byte in the file cannot be read. -/
def shortElf : ElfFile where
  byte
    | 0 => 0x7F
    | 1 => 0x45
    | 2 => 0x4C
    | 3 => 0x46
    | 32 => 64
    | 56 => 1
    | 64 => 1
    | 96 => 1
    | 105 => 16
    | _ => 0
  reads _ n := n ≠ 1

/-- The pages taken for the image are given back, in another order. -/
theorem exec_all_or_nothing_short :
    ∃ (vm vm' : Vm) (q : ExecProc),
      q.exec smallLayout [97] ⟨some shortElf, [], fun _ _ => 0⟩ vm =
        .ok ((q, -1, [.beginOp, .ilock, .iunlockput, .endOp]), vm') ∧
      vm'.freelist.Perm vm.freelist ∧ vm'.freelist ≠ vm.freelist := by
  obtain ⟨_, kernel, _, s, booted, run, live, fails⟩ := exists_smallRun []
    (P := fun s => (s.procs 0).life = .live ∧
      (execPrepare smallLayout ((s.procs 0).trapframe.getD 0)
        ⟨some shortElf, [], fun _ _ => 0⟩ s.vm).toOption.any (fun done => done.1.1.isNone ∧
          done.1.2 = [.beginOp, .ilock, .iunlockput, .endOp] ∧
          done.2.freelist ≠ s.vm.freelist) = true) (by decide +kernel)
  obtain ⟨trapframe, image, events, vm', isFrame, ran, _, failed⟩ :=
    exec_all_or_nothing booted run 0 ⟨s.procs 0, [], default⟩ rfl live [97]
      ⟨some shortElf, [], fun _ _ => 0⟩
  rw [show (s.procs 0).trapframe = _ from isFrame, Option.getD_some, ran] at fails
  obtain ⟨isNone, rfl, other⟩ := of_decide_eq_true fails
  obtain ⟨ret, perm, _⟩ := failed (Option.isNone_iff_eq_none.mp isNone)
  exact ⟨s.vm, vm', _, ret, perm, other⟩

end Pages

end CustomXv6

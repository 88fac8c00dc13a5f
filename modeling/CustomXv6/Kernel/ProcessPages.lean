/-
Module: CustomXv6.Kernel.ProcessPages
Purpose: The pages of one process and the functions that take and give them back.
Trusted boundary: human-reviewed spec
Main exports: MemProc.owns, MemProc.Ok, sysSbrk_exact
-/
import CustomXv6.Kernel.AddressSpace
import CustomXv6.Kernel.Proc
import Mathlib.Algebra.BigOperators.Fin
import Mathlib.Tactic.Abel

namespace CustomXv6

open PageHeap RadixTree Hoare
open Function

namespace Pages

/-!
A process as far as its pages are concerned: the pointers to pages it holds, its size, and the
fields the functions decide by.  What is written into trapframe and `usage_time` pages is left
out.
-/

/-- How far a slot of the process table is in use.  `live` is every state but
UNUSED and ZOMBIE. -/
inductive Life where
  | unused
  | live
  | zombie
deriving DecidableEq, Repr

structure MemThread where
  state : ThreadState := .free
  trapframe : Option UInt64 := none
  id : Int := 0
  join : Int := 0

/-- `struct proc`; the values are those of a slot that is not in use. -/
structure MemProc where
  life : Life := .unused
  trapframe : Option UInt64 := none
  usageTime : Option UInt64 := none
  pagetable : Option UInt64 := none
  sz : UInt64 := 0
  threads : ThreadId → MemThread := fun _ => {}
  currentThread : Option ThreadId := none

def MemProc.setThread (p : MemProc) (t : ThreadId) (thread : MemThread) : MemProc :=
  { p with threads := update p.threads t thread }

def kfreeIf (L : Layout) : Option UInt64 → VmM Unit
  | some pa => kfree L pa
  | none => pure ()

/-- `kfree` of one pointer after another. -/
def kfreeAll (L : Layout) : List (Option UInt64) → VmM Unit
  | [] => pure ()
  | pa :: rest => do
    kfreeIf L pa
    kfreeAll L rest

def freethread (L : Layout) (t : MemThread) : VmM MemThread := do
  kfreeIf L t.trapframe
  pure {}

/-- `if(p->pagetable) proc_freepagetable(p->pagetable, p->sz)`. -/
def freeSpace (L : Layout) (p : MemProc) : VmM Unit :=
  match p.pagetable with
  | some pagetable => procFreepagetable L pagetable p.sz
  | none => pure ()

def freeproc (L : Layout) (p : MemProc) : VmM MemProc := do
  kfreeIf L p.trapframe
  kfreeIf L p.usageTime
  freeSpace L p
  kfreeAll L ((List.finRange maxThread).map fun t => (p.threads t).trapframe)
  pure {}

/-- `allocproc` from the point where it has found the slot `p`. -/
def allocproc (L : Layout) (p : MemProc) : VmM (MemProc × Bool) := do
  match ← kalloc with
  | none =>
    let freed ← freeproc L { p with trapframe := none }
    pure (freed, false)
  | some trapframe =>
    match ← kalloc with
    | none =>
      let freed ← freeproc L { p with trapframe := some trapframe, usageTime := none }
      pure (freed, false)
    | some usageTime =>
      match ← procPagetable L trapframe with
      | none =>
        let freed ← freeproc L
          { p with trapframe := some trapframe, usageTime := some usageTime, pagetable := none }
        pure (freed, false)
      | some pagetable =>
        pure
          ({ p with life := .live, trapframe := some trapframe, usageTime := some usageTime,
                    pagetable := some pagetable, currentThread := none }, true)

/-- `fork` and `fork_deadline` by `p` into the free slot `np`. -/
def fork (L : Layout) (p np : MemProc) : VmM (MemProc × Bool) := do
  match ← allocproc L np with
  | (failed, false) => pure (failed, false)
  | (child, true) =>
    match p.pagetable, child.pagetable with
    | some old, some new =>
      if ← uvmcopy L old new p.sz then pure ({ child with sz := p.sz }, true)
      else
        let freed ← freeproc L child
        pure (freed, false)
    | _, _ => throw .nullPointer

/-- `userinit`, with the contents of the first page; `false` if that page could
not be mapped, which `uvmfirst` does not look at. -/
def userinit (L : Layout) (p : MemProc) (code : Nat → UInt64) : VmM (MemProc × Bool) := do
  match ← allocproc L p with
  | (_, false) => throw .nullPointer
  | (init, true) =>
    match init.pagetable with
    | none => throw .nullPointer
    | some pagetable =>
      let mapped ← uvmfirst pagetable code 52
      pure ({ init with sz := pgsize }, mapped)

/-- `growproc`; `true` is the return value 0 and `false` is -1. -/
def growproc (L : Layout) (p : MemProc) (n : Int32) : VmM (MemProc × Bool) :=
  match p.pagetable with
  | none => throw .nullPointer
  | some pagetable =>
    if 0 < n then do
      let sz ← uvmalloc L pagetable p.sz (p.sz + UInt64.ofInt n.toInt) pteW
      if sz = 0 then pure (p, false) else pure ({ p with sz := sz }, true)
    else if n < 0 then do
      let sz ← uvmdealloc L pagetable p.sz (p.sz + UInt64.ofInt n.toInt)
      pure ({ p with sz := sz }, true)
    else pure (p, true)

/-- `sys_sbrk`; -1 is returned as a `uint64`. -/
def sysSbrk (L : Layout) (p : MemProc) (n : Int32) : VmM (MemProc × UInt64) := do
  let addr := p.sz
  match ← growproc L p n with
  | (q, false) => pure (q, -1)
  | (q, true) => pure (q, addr)

/-- `exec`, with the old image freed when it commits. -/
def exec (L : Layout) (p : MemProc) (input : ExecInput) : VmM (MemProc × Bool) :=
  match p.trapframe, p.pagetable with
  | some trapframe, some oldpagetable => do
    match ← execImage L trapframe input with
    | none => pure (p, false)
    | some (pagetable, sz) =>
      procFreepagetable L oldpagetable p.sz
      pure ({ p with pagetable := some pagetable, sz := sz }, true)
  | _, _ => throw .nullPointer

/-- The loop of `sys_exec` over the user's argument pointers, from number `i` on:
each is a string whose length `fetchstr` returns or one it cannot read, and the
last is null unless `fetchaddr` fails there.  Returns the pages taken, the
lengths, and whether it got to the null pointer. -/
def fetchArgs (terminated : Bool) :
    Nat → List (Option UInt64) → VmM (List UInt64 × List UInt64 × Bool)
  | i, [] => pure ([], [], decide (i < 32) && terminated)
  | i, arg :: rest =>
    if 32 ≤ i then pure ([], [], false)
    else do
      match ← kalloc with
      | none => pure ([], [], false)
      | some page =>
        match arg with
        | none => pure ([page], [], false)
        | some len =>
          match ← fetchArgs terminated (i + 1) rest with
          | (pages, lens, ok) => pure (page :: pages, len :: lens, ok)

/-- `sys_exec`, once the path has been read. -/
def sysExec (L : Layout) (p : MemProc) (file : Option ElfFile) (data : UInt64 → Nat → UInt64)
    (args : List (Option UInt64)) (terminated : Bool) : VmM (MemProc × Bool) := do
  match ← fetchArgs terminated 0 args with
  | (pages, _, false) =>
    kfreeAll L (pages.map some)
    pure (p, false)
  | (pages, lens, true) =>
    match ← exec L p { file := file, argv := lens, data := data } with
    | res =>
      kfreeAll L (pages.map some)
      pure res

/-- The second half of `create_thread`; `main` says that the calling code has just
been made a thread. -/
def createSecond (L : Layout) (p : MemProc) (main : Bool) : VmM (MemProc × Int) :=
  match (List.finRange maxThread).find? fun t => (p.threads t).state = .free with
  | none => pure (p, -1)
  | some t => do
    match ← kalloc with
    | none =>
      let failed := p.setThread t { p.threads t with trapframe := none }
      match main, failed.currentThread with
      | true, some cur =>
        let freed ← freethread L (failed.threads cur)
        pure (failed.setThread cur freed, -1)
      | _, _ => pure (failed, -1)
    | some page =>
      pure (p.setThread t
        { p.threads t with trapframe := some page, id := t.val + 1, state := .runnable },
        t.val + 1)

def createThread (L : Layout) (p : MemProc) : VmM (MemProc × Int) :=
  match p.currentThread with
  | some _ => createSecond L p false
  | none => do
    match ← kalloc with
    | none => pure (p.setThread 0 { p.threads 0 with trapframe := none }, -1)
    | some page =>
      createSecond L
        { p.setThread 0 { state := .runnable, trapframe := some page, id := 1, join := 0 } with
          currentThread := some 0 } true

/-- The loop of `exit_t`: the threads that wait for `tid` are woken, and the last
slot with that id is the target. -/
def wakeJoined (p : MemProc) (tid : Int) : MemProc :=
  { p with threads := fun t =>
      if (p.threads t).join = tid then { p.threads t with state := .runnable, join := 0 }
      else p.threads t }

def exitT (L : Layout) (p : MemProc) (tid : Int) : VmM (MemProc × Int) :=
  match (List.finRange maxThread).reverse.find? fun t => ((wakeJoined p tid).threads t).id = tid with
  | none => pure (wakeJoined p tid, -1)
  | some target =>
    if ((wakeJoined p tid).threads target).state = .free then pure (wakeJoined p tid, -1)
    else do
      let freed ← freethread L ((wakeJoined p tid).threads target)
      pure ((wakeJoined p tid).setThread target freed, 0)

def exitThread (L : Layout) (p : MemProc) (tid : Int) : VmM (MemProc × Int) :=
  if tid = -1 then
    match p.currentThread with
    | none => throw .nullPointer
    | some t => exitT L p (p.threads t).id
  else exitT L p tid

/-! ### What a process owns -/

/-- The pages a process points to directly. -/
def MemProc.pointers (p : MemProc) : List (Option UInt64) :=
  p.trapframe :: p.usageTime :: (List.finRange maxThread).map fun t => (p.threads t).trapframe

def MemProc.space (p : MemProc) (vm : Vm) : UInt64 → Nat :=
  match p.pagetable with
  | some pagetable => owned vm pagetable (pagesOf p.sz)
  | none => 0

/-- The pages among pointers that may be null. -/
def pointed (pointers : List (Option UInt64)) : UInt64 → Nat := tally (pointers.filterMap id)

/-- The pages of a process: trapframes, `usage_time`, page-table pages and user
pages. -/
def MemProc.owns (p : MemProc) (vm : Vm) : UInt64 → Nat := pointed p.pointers + p.space vm

def MemProc.SpaceOk (vm : Vm) (p : MemProc) : Prop :=
  ∀ pagetable, p.pagetable = some pagetable → Space vm pagetable (pagesOf p.sz)

/-- A process as it is between operations. -/
structure MemProc.Ok (vm : Vm) (p : MemProc) : Prop where
  space : p.SpaceOk vm
  threads : ∀ t, (p.threads t).state = .free → (p.threads t).trapframe = none
  single : p.currentThread = none → ∀ t, (p.threads t).trapframe = none
  unused : p.life = .unused → p = {}
  used : p.life ≠ .unused → p.pagetable ≠ none ∧ p.trapframe ≠ none

theorem pointed_cons (pa : Option UInt64) (rest : List (Option UInt64)) :
    pointed (pa :: rest) = tally pa.toList + pointed rest := by
  cases pa with
  | none =>
    exact (zero_add _).symm
  | some page =>
    exact tally_cons page _

variable {pointers : List (Option UInt64)} {fail : VmPanic → Prop}

theorem pointed_none (none : ∀ pa ∈ pointers, pa = none) : pointed pointers = 0 := by
  induction pointers with
  | nil => rfl
  | cons pa _ ih =>
    rw [pointed_cons, none pa List.mem_cons_self, ih fun pa' mem => none pa' (.tail _ mem)]
    exact add_zero 0

/-- A process without threads owns its two pages and its address space. -/
theorem owns_single {p : MemProc} (vm : Vm) (threads : ∀ t, (p.threads t).trapframe = none) :
    p.owns vm = tally p.trapframe.toList + tally p.usageTime.toList + p.space vm := by
  have nothing : pointed ((List.finRange maxThread).map fun t => (p.threads t).trapframe) = 0 := by
    apply pointed_none
    intro _ mem
    obtain ⟨t, _, rfl⟩ := List.mem_map.mp mem
    exact threads t
  rw [MemProc.owns, MemProc.pointers, pointed_cons, pointed_cons, nothing, add_zero]

theorem owns_empty (vm : Vm) : MemProc.owns {} vm = 0 := by
  rfl

theorem ok_empty (vm : Vm) : MemProc.Ok vm {} := by
  constructor
  · intro _ absurd
    cases absurd
  · exact fun _ _ => rfl
  · exact fun _ _ => rfl
  · exact fun _ => rfl
  · exact fun notUnused => (notUnused rfl).elim

theorem not_unused {p : MemProc} (live : p.life = .live) : p.life ≠ .unused := by
  rw [live]
  decide

/-- A live process has a page table. -/
theorem MemProc.Ok.table {vm : Vm} {p : MemProc} (ok : p.Ok vm) (live : p.life = .live) :
    ∃ pt, p.pagetable = some pt ∧ p.space vm = owned vm pt (pagesOf p.sz) ∧
      Space vm pt (pagesOf p.sz) := by
  cases table : p.pagetable with
  | none => exact ((ok.used (not_unused live)).1 table).elim
  | some pt =>
    refine ⟨pt, rfl, ?_, ok.space pt table⟩
    rw [MemProc.space, table]

variable {L : Layout} {vm vm' : Vm} {own own' : UInt64 → Nat} {p p' : MemProc}

/-- An address space is not touched by code that does not own it. -/
theorem space_kept (moves : Moves own own' vm vm') (sep : L.Owns vm (own + p.space vm)) :
    p.space vm' = p.space vm ∧ (p.SpaceOk vm → p.SpaceOk vm') := by
  cases table : p.pagetable with
  | none =>
    constructor
    · rw [MemProc.space, MemProc.space, table]
    · intro _ pt absurd
      rw [table] at absurd
      cases absurd
  | some pt =>
    have space : ∀ vm : Vm, p.space vm = owned vm pt (pagesOf p.sz) := by
      intro _
      rw [MemProc.space, table]
    rw [space] at sep
    obtain ⟨same, kept⟩ := owned_kept moves sep
    constructor
    · rw [space, space, same]
    · intro ok _ here
      rw [table] at here
      cases here
      exact kept (ok pt table)

/-- What a process owns is not touched by code that does not own it. -/
theorem owns_kept (moves : Moves own own' vm vm') (sep : L.Owns vm (own + p.owns vm)) :
    p.owns vm' = p.owns vm ∧ (p.Ok vm → p.Ok vm') := by
  rw [MemProc.owns, add_left_comm] at sep
  obtain ⟨same, kept⟩ := space_kept moves sep.right
  constructor
  · rw [MemProc.owns, MemProc.owns, same]
  · intro ok
    exact ⟨kept ok.space, ok.threads, ok.single, ok.unused, ok.used⟩

/-! ### freeproc -/

theorem kfreeIf_spec {pa : Option UInt64} (sep : L.Owns vm (tally pa.toList)) :
    wp (kfreeIf L pa) (fun _ vm' => Moves (tally pa.toList) 0 vm vm') fail vm := by
  cases pa with
  | none => exact Moves.refl
  | some => exact kfree_owned sep

theorem kfreeAll_spec (sep : L.Owns vm (pointed pointers)) :
    wp (kfreeAll L pointers) (fun _ vm' => Moves (pointed pointers) 0 vm vm') fail vm := by
  induction pointers generalizing vm with
  | nil => exact Moves.refl
  | cons _ rest ih =>
    rw [pointed_cons] at sep ⊢
    apply wp_seq (kfreeIf_spec sep.left)
    intro _ _ freed
    have moved := freed.add (pointed rest)
    rw [zero_add] at moved
    apply wp_imp (ih (moved.separate sep))
    intro _ _ freedRest
    exact moved.trans freedRest

theorem freethread_spec {t : MemThread} (sep : L.Owns vm (tally t.trapframe.toList)) :
    wp (freethread L t) (fun freed vm' => freed = {} ∧ Moves (tally t.trapframe.toList) 0 vm vm')
      fail vm := by
  apply wp_seq (kfreeIf_spec sep)
  intro _ _ moves
  exact ⟨rfl, moves⟩

/-- The page table is freed with the address space, if there is one. -/
theorem freeSpace_spec (space : p.SpaceOk vm) (sep : L.Owns vm (p.space vm)) :
    wp (freeSpace L p) (fun _ vm' => Moves (p.space vm) 0 vm vm') Never vm := by
  rw [freeSpace]
  cases table : p.pagetable with
  | none =>
    rw [MemProc.space, table]
    exact Moves.refl
  | some pt =>
    rw [MemProc.space, table] at sep ⊢
    exact procFreepagetable_spec (fun _ leaf => leaf) sep (space pt table)

/-- `freeproc` gives back everything the process owns. -/
theorem freeproc_spec (space : p.SpaceOk vm) (sep : L.Owns vm (p.owns vm)) :
    wp (freeproc L p) (fun freed vm' => freed = {} ∧ Moves (p.owns vm) 0 vm vm') Never
      vm := by
  have parts : p.owns vm = tally p.trapframe.toList + (tally p.usageTime.toList +
      (p.space vm + pointed ((List.finRange maxThread).map fun t => (p.threads t).trapframe))) := by
    rw [MemProc.owns, MemProc.pointers, pointed_cons, pointed_cons, add_assoc, add_assoc,
      add_comm (p.space vm)]
  rw [parts] at sep ⊢
  apply wp_seq (kfreeIf_spec sep.left)
  intro _ _ freed1
  have moves1 := freed1.add (tally p.usageTime.toList + (p.space vm +
    pointed ((List.finRange maxThread).map fun t => (p.threads t).trapframe)))
  rw [zero_add] at moves1
  have sep1 := moves1.separate sep
  apply wp_seq (kfreeIf_spec sep1.left)
  intro _ vm2 freed2
  have moves2 := freed2.add (p.space vm +
    pointed ((List.finRange maxThread).map fun t => (p.threads t).trapframe))
  rw [zero_add] at moves2
  have sep2 := moves2.separate sep1
  -- The two pages freed so far are not pages of the address space.
  have both : Moves (tally p.trapframe.toList + tally p.usageTime.toList) 0 vm vm2 := by
    apply (freed1.add _).trans
    rw [zero_add]
    exact freed2
  have beside : L.Owns vm
      (tally p.trapframe.toList + tally p.usageTime.toList + p.space vm) := by
    rw [← add_assoc, ← add_assoc] at sep
    exact sep.left
  obtain ⟨same, kept⟩ := space_kept both beside
  rw [← same] at sep2
  apply wp_seq (freeSpace_spec (kept space) sep2.left)
  intro _ _ freed3
  have moves3 := freed3.add
    (pointed ((List.finRange maxThread).map fun t => (p.threads t).trapframe))
  rw [zero_add] at moves3
  apply wp_seq (kfreeAll_spec (moves3.separate sep2))
  intro _ _ freed4
  rw [same] at moves3
  exact ⟨rfl, ((moves1.trans moves2).trans moves3).trans freed4⟩

/-! ### allocproc and fork -/

/-- `kalloc`, seen from code that owns nothing. -/
theorem kalloc_spec : wp kalloc (fun taken vm' => Moves 0 (tally taken.toList) vm vm') fail vm := by
  apply wp_kalloc
  · intro _
    exact Moves.refl
  intro r _ free
  rw [← zero_add (tally (some r).toList)]
  apply Moves.alloc free rfl
  intro p ne
  exact takePage_mem_of_ne ne

/-- The process `allocproc` returns. -/
structure Allocated (vm : Vm) (p : MemProc) : Prop where
  ok : p.Ok vm
  life : p.life = .live
  size : p.sz = 0
  threads : ∀ t, (p.threads t).trapframe = none
  usage : p.usageTime ≠ none

/-- The failure paths of `allocproc` free the slot again. -/
theorem freeSlot_spec {vm0 : Vm} (sep : L.Owns vm0 0)
    (table : p.pagetable = none) (moves : Moves 0 (p.owns vm) vm0 vm) :
    wp (do
        let freed ← freeproc L p
        pure (freed, false))
      (fun res vm' => res = ({}, false) ∧ Moves 0 0 vm0 vm') Never vm := by
  have space : p.SpaceOk vm := by
    intro _ absurd
    rw [table] at absurd
    cases absurd
  apply wp_seq (freeproc_spec space (moves.separate sep))
  rintro _ _ ⟨rfl, gone⟩
  exact ⟨rfl, moves.trans gone⟩

/-- `allocproc` on a free slot: a process without user memory, or nothing. -/
theorem allocproc_spec (sep : L.Owns vm 0) :
    wp (allocproc L {}) (fun res vm' =>
        (res.2 = true ∧ Moves 0 (res.1.owns vm') vm vm' ∧ Allocated vm' res.1) ∨
        (res = ({}, false) ∧ Moves 0 0 vm vm')) Never vm := by
  apply wp_seq kalloc_spec
  intro trapframe vm1 taken1
  cases trapframe with
  | none =>
    have moves : Moves 0 (MemProc.owns {} vm1) vm vm1 := by
      exact taken1
    apply wp_imp (freeSlot_spec sep rfl moves)
    exact fun _ _ failed => .inr failed
  | some trapframe =>
    apply wp_seq kalloc_spec
    intro usageTime vm2 taken2
    have moves2 := taken2.add_left (tally (some trapframe).toList)
    have sofar2 := taken1.trans moves2
    cases usageTime with
    | none =>
      have moves : Moves 0 (MemProc.owns { trapframe := some trapframe } vm2) vm vm2 := by
        exact sofar2
      apply wp_imp (freeSlot_spec sep rfl moves)
      exact fun _ _ failed => .inr failed
    | some usageTime =>
      dsimp only
      rw [wp_bind]
      have sep2 := sofar2.separate sep
      have nothing : L.Owns vm2 0 := by
        rw [← add_zero (_ + _)] at sep2
        exact sep2.right
      apply wp_imp (procPagetable_spec (fun _ (leaf : Leaf _) => leaf) trapframe nothing)
      intro pt vm3 made
      cases pt with
      | none =>
        have moves3 := Moves.add_left made
          (tally (some trapframe).toList + tally (some usageTime).toList)
        have moves : Moves 0 (MemProc.owns { trapframe := some trapframe
                                             usageTime := some usageTime } vm3) vm vm3 := by
          rw [owns_single vm3 fun _ => rfl]
          exact sofar2.trans moves3
        apply wp_imp (freeSlot_spec sep rfl moves)
        exact fun _ _ failed => .inr failed
      | some =>
        obtain ⟨built, space⟩ := made
        have pages0 : pagesOf 0 = 0 := rfl
        rw [← pages0] at built space
        have moves3 := built.add_left
          (tally (some trapframe).toList + tally (some usageTime).toList)
        refine .inl ⟨rfl, ?_, ?_⟩
        · rw [owns_single vm3 fun _ => rfl]
          exact sofar2.trans moves3
        refine ⟨⟨?_, fun _ _ => rfl, fun _ _ => rfl, fun absurd => ?_, fun _ => ?_⟩, rfl, rfl,
          fun _ => rfl, Option.some_ne_none _⟩
        · rintro _ ⟨⟩
          exact space
        · cases absurd
        · exact ⟨Option.some_ne_none _, Option.some_ne_none _⟩

/-- `fork` into a free slot, beside the parent: a whole child, or nothing. -/
theorem fork_spec (ok : p.Ok vm) (live : p.life = .live) (sep : L.Owns vm (p.owns vm)) :
    wp (fork L p {}) (fun res vm' =>
        Moves 0 (res.1.owns vm') vm vm' ∧ res.1.Ok vm' ∧
          (res = ({}, false) ∨ res.2 = true ∧ res.1.life = .live ∧
            res.1.sz = p.sz ∧ res.1.usageTime ≠ none)) Never vm := by
  have nothing : L.Owns vm 0 := by
    rw [← zero_add (p.owns vm)] at sep
    exact sep.left
  apply wp_seq (allocproc_spec nothing)
  rintro ⟨child, made⟩ vm1 (⟨isMade, moves1, typed⟩ | ⟨failed, moves1⟩)
  · obtain rfl : _ = true := isMade
    dsimp only at moves1 typed ⊢
    cases parentTable : p.pagetable with
    | none => exact ((ok.used (not_unused live)).1 parentTable).elim
    | some old =>
      cases childTable : child.pagetable with
      | none => exact ((typed.ok.used (not_unused typed.life)).1 childTable).elim
      | some new =>
        -- The parent is as before, beside the child.
        rw [← zero_add (p.owns vm)] at sep
        obtain ⟨parentSame, parentKept⟩ := owns_kept moves1 sep
        have sep1 := (moves1.add (p.owns vm)).separate sep
        have parentSpace : p.space vm1 = owned vm1 old (pagesOf p.sz) := by
          rw [MemProc.space, parentTable]
        have childSpace : ∀ (sz : UInt64) (vm : Vm), MemProc.owns { child with sz := sz } vm =
            tally child.trapframe.toList + tally child.usageTime.toList +
              owned vm new (pagesOf sz) := by
          intro sz vm
          have single : ∀ t, (MemProc.threads { child with sz := sz } t).trapframe = none :=
            typed.threads
          rw [owns_single vm single, MemProc.space, childTable]
        have pages0 : pagesOf child.sz = 0 := by
          rw [typed.size]
          rfl
        have childOwns : ∀ vm : Vm, child.owns vm = tally child.trapframe.toList +
            tally child.usageTime.toList + owned vm new 0 := by
          intro vm
          rw [← pages0]
          exact childSpace child.sz vm
        have newSpace : Space vm1 new 0 := by
          rw [← pages0]
          exact typed.ok.space new childTable
        have both : L.Owns vm1 (owned vm1 new 0 + owned vm1 old (pagesOf p.sz)) := by
          rw [← parentSame, childOwns, MemProc.owns, parentSpace, add_add_add_comm] at sep1
          exact sep1.right
        dsimp only
        apply wp_seq (uvmcopy_spec (fun _ => notKernelPage) both
          ((parentKept ok).space old parentTable).user newSpace)
        rintro done vm2 ⟨copied, newSpace2⟩
        rw [childOwns] at moves1
        have sofar := moves1.trans (copied.add_left _)
        cases done with
        | true =>
          rw [if_pos rfl, ← childTable]
          refine ⟨?_, ⟨?_, typed.ok.threads, typed.ok.single, ?_, ?_⟩,
            .inr ⟨rfl, typed.life, rfl, typed.usage⟩⟩
          · rw [childSpace]
            exact sofar
          · intro pt here
            obtain rfl : new = pt := Option.some.inj (childTable.symm.trans here)
            exact newSpace2
          · exact fun unused => (not_unused typed.life unused).elim
          · exact typed.ok.used
        | false =>
          have childOwns2 : Moves 0 (child.owns vm2) vm vm2 := by
            rw [childOwns]
            exact sofar
          have space2 : child.SpaceOk vm2 := by
            intro pt here
            obtain rfl : _ = _ := Option.some.inj (childTable.symm.trans here)
            rw [pages0]
            exact newSpace2
          apply wp_seq (freeproc_spec space2 (childOwns2.separate nothing))
          rintro _ vm3 ⟨rfl, gone⟩
          refine ⟨?_, ok_empty vm3, .inl rfl⟩
          exact childOwns2.trans gone
  · obtain ⟨rfl, rfl⟩ := Prod.mk.inj failed
    refine ⟨?_, ok_empty vm1, .inl rfl⟩
    exact moves1

/-! ### Calls of a process that change what it owns -/

/-- A process and memory before and after a call. -/
structure Became (vm : Vm) (p : MemProc) (vm' : Vm) (p' : MemProc) : Prop where
  moves : Moves (p.owns vm) (p'.owns vm') vm vm'
  ok : p'.Ok vm'
  life : p'.life = p.life

theorem Became.refl (ok : p.Ok vm) : Became vm p vm p := ⟨Moves.refl, ok, rfl⟩

/-- Pages were taken and given back meanwhile. -/
theorem Became.beside (ok : p.Ok vm) (sep : L.Owns vm (0 + p.owns vm))
    (moves : Moves 0 0 vm vm') : Became vm p vm' p := by
  obtain ⟨same, kept⟩ := owns_kept moves sep
  have whole := moves.add (p.owns vm)
  rw [zero_add] at whole
  refine ⟨?_, kept ok, rfl⟩
  rw [same]
  exact whole

/-- Only the address space changes. -/
theorem Became.space {pt sz : UInt64} (ok : p.Ok vm) (live : p.life = .live)
    (moves : Moves (p.space vm) (owned vm' pt (pagesOf sz)) vm vm')
    (space : Space vm' pt (pagesOf sz)) :
    Became vm p vm' { p with pagetable := some pt, sz := sz } := by
  constructor
  · exact moves.add_left _
  · constructor
    · rintro _ ⟨⟩
      exact space
    · exact ok.threads
    · exact ok.single
    · exact fun unused => (not_unused live unused).elim
    · intro inUse
      exact ⟨Option.some_ne_none _, (ok.used inUse).2⟩
  · rfl

/-- The first page of `userinit`, if it could be mapped. -/
theorem uvmfirst_spec {pt : UInt64} (code : Nat → UInt64)
    (sep : L.Owns vm (owned vm pt 0)) (space : Space vm pt 0) :
    wp (uvmfirst pt code 52) (fun mapped vm' => mapped = true →
        Moves (owned vm pt 0) (owned vm' pt 1) vm vm' ∧ Space vm' pt 1)
      (fun e => e = .nullPointer) vm := by
  have isLeaf : ∀ r, Leaf (pa2pte r ||| (pteW ||| pteR ||| pteX ||| pteU) ||| pteV) := by
    intro r
    rw [UInt64.or_assoc]
    exact leaf_encode r (by decide) (by decide) (by decide)
  rw [uvmfirst, if_neg (by decide), wp_bind]
  apply wp_kalloc
  · intro _
    rfl
  intro r _ free
  rw [wp_bind, wp_fill, wp_bind]
  have start : Extends pt (fun _ => pteW ||| pteR ||| pteX ||| pteU) (fun _ _ => 0)
      vm 0 0 0 vm := .refl space.inner
  have taken := start.beside sep.right (takePage_moves free fun _ => 0)
  apply wp_imp (taken.map sep.right (update_self _ _ _) le_rfl (by decide)
    (space.blank 0 (by decide) le_rfl (notKernelPage (by decide))) (by decide)
    (show (0 : UInt64).toNat = 0 * 4096 from rfl))
  intro _ _ res
  rintro rfl
  obtain ⟨first, target⟩ := res
  have moves := first.owned (Nat.zero_le 1) (Nat.zero_le _)
  rw [zero_add] at moves
  obtain ⟨filled, space3⟩ := fillUser Nat.zero_lt_one code (moves.separate sep)
    (first.shape space (Nat.zero_le 1) (by decide) fun _ _ => isLeaf)
  rw [target] at filled space3
  exact ⟨moves.trans filled, space3⟩

/-- The first process. -/
theorem userinit_spec (code : Nat → UInt64) (sep : L.Owns vm 0) :
    wp (userinit L {} code) (fun res vm' => res.2 = true →
        Moves 0 (res.1.owns vm') vm vm' ∧ res.1.Ok vm' ∧ res.1.life = .live)
      (fun e => e = .nullPointer) vm := by
  rw [userinit, wp_bind]
  apply wp_mono (allocproc_spec sep) _ fun _ failed => failed.elim
  rintro ⟨init, made⟩ vm1 (⟨isMade, moves1, typed⟩ | ⟨failed, _⟩)
  · obtain rfl : _ = _ := isMade
    dsimp only at moves1 typed ⊢
    obtain ⟨pt, table, initSpace, space⟩ := typed.ok.table typed.life
    have pages0 : pagesOf init.sz = 0 := by
      rw [typed.size]
      rfl
    have sep1 := moves1.separate sep
    rw [pages0] at initSpace space
    have own : L.Owns vm1 (owned vm1 pt 0) := by
      rw [MemProc.owns, initSpace] at sep1
      exact sep1.right
    rw [table]
    apply wp_seq (uvmfirst_spec code own space)
    intro _ _ first isMapped
    obtain ⟨moves2, space2⟩ := first isMapped
    have pages1 : pagesOf pgsize = 1 := by decide
    rw [← pages1] at moves2 space2
    rw [← initSpace] at moves2
    have became := Became.space typed.ok typed.life moves2 space2
    exact ⟨moves1.trans became.moves, became.ok, typed.life⟩
  · obtain ⟨rfl, rfl⟩ := Prod.mk.inj failed
    rfl

theorem grow_leaf (r : UInt64) : Leaf (pa2pte r ||| (pteR ||| pteU ||| pteW) ||| pteV) := by
  rw [UInt64.or_assoc]
  exact leaf_encode r (by decide) (by decide) (by decide)

/-- `growproc` keeps the shape of the address space. -/
theorem growproc_spec (n : Int32) (ok : p.Ok vm) (live : p.life = .live)
    (sep : L.Owns vm (p.owns vm)) :
    wp (growproc L p n) (fun res vm' => Became vm p vm' res.1) Never vm := by
  obtain ⟨pt, table, spaceOwned, space⟩ := ok.table live
  have own : L.Owns vm (owned vm pt (pagesOf p.sz)) := by
    rw [MemProc.owns, spaceOwned] at sep
    exact sep.right
  have resized : ∀ (sz : UInt64) (vm' : Vm),
      Moves (owned vm pt (pagesOf p.sz)) (owned vm' pt (pagesOf sz)) vm vm' →
      Space vm' pt (pagesOf sz) → Became vm p vm' { p with sz := sz } := by
    intro sz _ moves space'
    rw [← spaceOwned] at moves
    have became := Became.space ok live moves space'
    rw [← table] at became
    exact became
  rw [growproc, table]
  dsimp only
  split
  · apply wp_seq (uvmalloc_spec (fun _ leaf => leaf) (fun _ low => notKernelPage low) grow_leaf
      (by decide) own space)
    intro sz vm1 grew
    have kept : Grew pt Leaf KernelPage vm (pagesOf p.sz) (pagesOf p.sz) vm1 →
        Became vm p vm1 p := fun grew => resized p.sz vm1 grew.moves grew.shape
    split
    · rename_i isZero
      rcases grew with ⟨isSize, grew⟩ | ⟨_, grew⟩
      · apply kept
        rw [pagesOf_failed isZero isSize] at grew
        exact grew
      · exact kept grew
    rename_i notZero
    rcases grew with ⟨_, grew⟩ | ⟨isZero, _⟩
    · have became := resized sz vm1 grew.moves grew.shape
      rw [← table]
      exact became
    · exact (notZero isZero).elim
  split
  · apply wp_seq (uvmdealloc_spec (fun _ leaf => leaf) own space
      fun v lt => notKernelPage (by have := pages_bound own; omega))
    rintro sz vm1 ⟨_, moves, space1⟩
    have became := resized sz vm1 moves space1
    rw [← table]
    exact became
  · exact Became.refl ok

/-- The size that `growproc` asks for, unless it is below zero. -/
theorem toNat_resize {sz : UInt64} {n : Int32} (small : sz.toNat < 2 ^ 32)
    (enough : 0 ≤ (sz.toNat : Int) + n.toInt) :
    ((sz + UInt64.ofInt n.toInt).toNat : Int) = sz.toNat + n.toInt := by
  have high := n.toInt_lt
  rw [UInt64.toNat_add, UInt64.ofInt, UInt64.toNat_ofNat']
  omega

theorem toNat_resize_below {sz : UInt64} {n : Int32} (small : sz.toNat < 2 ^ 32)
    (below : ¬ 0 ≤ (sz.toNat : Int) + n.toInt) :
    sz.toNat ≤ (sz + UInt64.ofInt n.toInt).toNat := by
  have low := n.le_toInt
  rw [UInt64.toNat_add, UInt64.ofInt, UInt64.toNat_ofNat']
  omega

/-- What `sbrk(n)` is to do: it returns -1 and changes neither the process nor its mappings, or it
returns the old size and changes it by `n`. -/
def SbrkExact (p : MemProc) (vm : Vm) (n : Int32) (res : MemProc × UInt64) (vm' : Vm) : Prop :=
  (res.2 = -1 ∧ res.1 = p ∧ ∀ pagetable, p.pagetable = some pagetable →
    ∀ v < 2 ^ 27, vm'.entry pagetable v = vm.entry pagetable v) ∨
  (res.2 = p.sz ∧ res.1 = { p with sz := res.1.sz } ∧ (res.1.sz.toNat : Int) = p.sz.toNat + n.toInt)

/-- `sbrk` does that for the amounts that do not go below zero, and for no others. -/
theorem sysSbrk_exact {n : Int32} (ok : p.Ok vm) (live : p.life = .live)
    (sep : Separate (InPool L) vm (p.owns vm)) :
    wp (sysSbrk L p n)
      (fun res vm' => SbrkExact p vm n res vm' ↔ 0 ≤ (p.sz.toNat : Int) + n.toInt)
      (fun _ => False) vm := by
  obtain ⟨pt, table, spaceOwned, space⟩ := ok.table live
  have own : Separate (InPool L) vm (owned vm pt (pagesOf p.sz)) := by
    rw [MemProc.owns, spaceOwned] at sep
    exact sep.right
  have bound : pagesOf p.sz ≤ 32768 := pages_bound own
  have small : p.sz.toNat < 2 ^ 32 := by
    rw [pagesOf] at bound
    omega
  rw [sysSbrk, growproc, table, wp_bind]
  dsimp only
  split
  · rename_i pos
    rw [Int32.lt_iff_toInt_lt] at pos
    change 0 < n.toInt at pos
    have enough : 0 ≤ (p.sz.toNat : Int) + n.toInt := by omega
    have resized := toNat_resize small enough
    have larger : p.sz ≤ p.sz + UInt64.ofInt n.toInt := by
      rw [UInt64.le_iff_toNat_le]
      omega
    apply wp_seq (uvmalloc_exact own space.inner
      (fun v low high => space.blank v (by omega) low (notKernelPage high)) grow_leaf (by decide)
      larger)
    rintro sz vm1 (⟨rfl, _⟩ | ⟨rfl, zeroed⟩)
    · have notZero : ¬ p.sz + UInt64.ofInt n.toInt = 0 := by
        rw [← UInt64.toNat_inj]
        change ¬ _ = 0
        omega
      rw [if_neg notZero]
      exact iff_of_true (.inr ⟨rfl, by rw [← table], resized⟩) enough
    · refine iff_of_true (.inl ⟨rfl, rfl, fun pagetable' here v small => ?_⟩) enough
      obtain rfl : _ = _ := Option.some.inj (table.symm.trans here)
      exact zeroed.other v small (by omega)
  split
  · rename_i negative
    rw [Int32.lt_iff_toInt_lt] at negative
    change n.toInt < 0 at negative
    apply wp_seq (uvmdealloc_spec (fun _ leaf => leaf) own space
      fun v lt => notKernelPage (by omega))
    rintro _ _ ⟨isSize, _⟩
    by_cases enough : 0 ≤ (p.sz.toNat : Int) + n.toInt
    · have resized := toNat_resize small enough
      rw [if_neg (by rw [UInt64.le_iff_toNat_le]; omega)] at isSize
      refine iff_of_true (.inr ⟨rfl, by rw [← table], ?_⟩) enough
      rw [← resized, ← isSize]
    -- The sum wraps around and is not below the old size, which is kept.
    have wraps := toNat_resize_below small enough
    rw [if_pos (by rw [UInt64.le_iff_toNat_le]; omega)] at isSize
    refine iff_of_false ?_ enough
    rintro (⟨failed, _⟩ | ⟨_, _, exact⟩)
    · rw [show p.sz = -1 from failed] at small
      exact absurd small (by decide)
    · rw [show p.sz.toNat + n.toInt = p.sz.toNat from isSize ▸ exact.symm] at enough
      omega
  rename_i notPositive notNegative
  rw [Int32.lt_iff_toInt_lt] at notPositive notNegative
  change ¬ 0 < n.toInt at notPositive
  change ¬ n.toInt < 0 at notNegative
  refine iff_of_true (.inr ⟨rfl, rfl, ?_⟩) (by omega)
  change (p.sz.toNat : Int) = _
  omega

def tenPages : Vm := ⟨(List.range 10).map fun k => samplePage (UInt64.ofNat k), fun _ _ => 0⟩

/-- The first process grows by a page. -/
theorem sysSbrk_exact_first_process : ∃ (p : MemProc) (vm : Vm), p.sz = 4096 ∧
    wp (sysSbrk smallLayout p 4096)
      (fun res _ => res.2 = -1 ∨ (res.1.sz.toNat : Int) = 8192) (fun _ => False) vm := by
  have sep : Separate (InPool smallLayout) tenPages 0 :=
    @separate_of_nodup _ _ [] (by decide) (by decide)
  have tested : (userinit smallLayout {} (fun _ => 0) tenPages).toOption.any
      (fun res => decide (res.1.2 = true ∧ res.1.1.sz = 4096)) = true := by decide +kernel
  cases run : userinit smallLayout {} (fun _ => 0) tenPages with
  | error =>
    rw [run] at tested
    cases tested
  | ok res =>
    obtain ⟨⟨p, _⟩, vm⟩ := res
    rw [run] at tested
    obtain ⟨rfl, size⟩ := of_decide_eq_true tested
    obtain ⟨moves, ok, live⟩ := wp_run (userinit_spec _ sep) run rfl
    refine ⟨p, vm, size, wp_imp (sysSbrk_exact ok live (moves.separate sep)) ?_⟩
    intro _ _ exactly
    obtain failed | grown := exactly.mpr (by rw [size]; decide)
    · exact .inl failed.1
    · rw [grown.2.2, size]
      exact .inr rfl

/-- The first process has one page and gives back two: this is reported as a success
that leaves the size. -/
theorem sysSbrk_below_zero :
    (do
      let init ← userinit smallLayout {} fun _ => 0
      let res ← sysSbrk smallLayout init.1 (-8192)
      pure (init.1.sz, res.2, res.1.sz) : VmM (UInt64 × UInt64 × UInt64)).run' tenPages =
    .ok (4096, 4096, 4096) := by
  decide +kernel

/-- `exec` replaces the address space or leaves the process alone. -/
theorem exec_spec (input : ExecInput) (ok : p.Ok vm) (live : p.life = .live)
    (sep : L.Owns vm (p.owns vm)) :
    wp (exec L p input) (fun res vm' => Became vm p vm' res.1) Never vm := by
  obtain ⟨pt, table, _, _⟩ := ok.table live
  cases frame : p.trapframe with
  | none => exact ((ok.used (not_unused live)).2 frame).elim
  | some trapframe =>
    rw [← zero_add (p.owns vm)] at sep
    rw [exec, frame, table]
    apply wp_seq (execImage_spec trapframe input sep.left)
    intro made vm1 image
    cases made with
    | none =>
      exact Became.beside ok sep image
    | some new =>
      obtain ⟨newTable, sz⟩ := new
      obtain ⟨built, newSpace⟩ := image
      have separateSpace : L.Owns vm (0 + p.space vm) := by
        rw [MemProc.owns, add_left_comm] at sep
        exact sep.right
      obtain ⟨same, kept⟩ := space_kept built separateSpace
      have both := (built.add (p.space vm)).separate separateSpace
      have oldSpace := kept ok.space pt table
      rw [← same] at both
      have spaceOwned1 : p.space vm1 = owned vm1 pt (pagesOf p.sz) := by
        rw [MemProc.space, table]
      have oldSeparate : L.Owns vm1 (owned vm1 pt (pagesOf p.sz)) := by
        rw [← spaceOwned1]
        exact both.right
      dsimp only
      apply wp_seq (procFreepagetable_spec (fun _ leaf => leaf) oldSeparate oldSpace)
      intro _ vm2 freed
      rw [← spaceOwned1] at freed
      rw [add_comm] at both
      obtain ⟨newSame, newKept⟩ := owned_kept freed both
      -- The new image is built, then the old one is given back.
      have replaced : Moves (p.space vm) (owned vm2 newTable (pagesOf sz)) vm vm2 := by
        have first := built.add (p.space vm)
        have second := freed.add_left (owned vm1 newTable (pagesOf sz))
        rw [same] at second
        rw [zero_add] at first
        rw [newSame]
        exact first.trans second
      have became := Became.space ok live replaced (newKept newSpace)
      rw [frame] at became
      exact became

theorem fetchArgs_spec {terminated : Bool} {i : Nat} {args : List (Option UInt64)} :
    wp (fetchArgs terminated i args) (fun res vm' => Moves 0 (tally res.1) vm vm') fail
      vm := by
  induction args generalizing i vm with
  | nil => exact Moves.refl
  | cons arg _ ih =>
    rw [fetchArgs]
    split
    · exact Moves.refl
    apply wp_seq kalloc_spec
    intro taken _ moves1
    cases taken with
    | none => exact moves1
    | some page =>
      cases arg with
      | none => exact moves1
      | some =>
        apply wp_seq ih
        rintro ⟨_, _, _⟩ _ moves2
        have later := Moves.add_left moves2 (tally [page])
        rw [add_zero, ← tally_cons] at later
        exact moves1.trans later

theorem pointed_some (pages : List UInt64) : pointed (pages.map some) = tally pages := by
  rw [pointed, List.filterMap_map]
  exact congrArg tally List.filterMap_some

/-- `sys_exec` gives back the pages of the arguments on every path. -/
theorem sysExec_spec (file : Option ElfFile) (data : UInt64 → Nat → UInt64)
    (args : List (Option UInt64)) (terminated : Bool) (ok : p.Ok vm) (live : p.life = .live)
    (sep : L.Owns vm (p.owns vm)) :
    wp (sysExec L p file data args terminated) (fun res vm' => Became vm p vm' res.1)
      Never vm := by
  rw [← zero_add (p.owns vm)] at sep
  apply wp_seq fetchArgs_spec
  rintro ⟨pages, _, done⟩ _ taken
  obtain ⟨same1, kept1⟩ := owns_kept taken sep
  have sep1 := (taken.add (p.owns vm)).separate sep
  cases done with
  | false =>
    rw [wp_bind]
    have taken' := sep1.left
    rw [← pointed_some] at taken'
    apply wp_imp (kfreeAll_spec taken')
    intro _ vm2 freed
    rw [pointed_some] at freed
    exact Became.beside ok sep (taken.trans freed)
  | true =>
    rw [← same1] at sep1
    dsimp only
    apply wp_seq (exec_spec _ (kept1 ok) live sep1.right)
    rintro ⟨p', _⟩ vm2 became
    have sep2 := (became.moves.add_left (tally pages)).separate sep1
    have taken' := sep2.left
    rw [← pointed_some] at taken'
    apply wp_seq (kfreeAll_spec taken')
    intro _ _ freed
    rw [pointed_some] at freed
    obtain ⟨same3, kept3⟩ := owns_kept freed sep2
    refine ⟨?_, kept3 became.ok, became.life⟩
    have first := taken.add (p.owns vm)
    have second := became.moves.add_left (tally pages)
    have third := freed.add (p'.owns vm2)
    rw [zero_add] at first third
    rw [same1] at second
    rw [same3]
    exact (first.trans second).trans third

/-! ### Threads -/

/-- The pages of the threads, as a sum. -/
theorem pointed_finRange (pointers : ThreadId → Option UInt64) :
    pointed ((List.finRange maxThread).map pointers) = ∑ t, tally (pointers t).toList := by
  have sums : ∀ list : List ThreadId, pointed (list.map pointers) =
      (list.map fun t => tally (pointers t).toList).sum := by
    intro list
    induction list with
    | nil => rfl
    | cons _ _ ih =>
      rw [List.map_cons, pointed_cons, ih, List.map_cons, List.sum_cons]
  rw [sums, Fin.sum_univ_def]

/-- What a process owns apart from the trapframe of thread `t`. -/
def MemProc.others (p : MemProc) (t : ThreadId) (vm : Vm) : UInt64 → Nat :=
  tally p.trapframe.toList + tally p.usageTime.toList +
    (∑ t' ∈ Finset.univ.erase t, tally (p.threads t').trapframe.toList) + p.space vm

@[simp] theorem setThread_self (t : ThreadId) (thread : MemThread) :
    (p.setThread t thread).threads t = thread := update_self ..

variable {t : ThreadId}

theorem setThread_of_ne {t' : ThreadId} (ne : t' ≠ t) (thread : MemThread) :
    (p.setThread t thread).threads t' = p.threads t' := update_of_ne ne ..

theorem owns_setThread (t : ThreadId) (thread : MemThread) :
    (p.setThread t thread).owns vm = tally thread.trapframe.toList + p.others t vm := by
  have split := Finset.add_sum_erase Finset.univ
    (fun t' => tally ((p.setThread t thread).threads t').trapframe.toList) (Finset.mem_univ t)
  have rest : ∑ t' ∈ Finset.univ.erase t, tally ((p.setThread t thread).threads t').trapframe.toList =
      ∑ t' ∈ Finset.univ.erase t, tally (p.threads t').trapframe.toList := by
    apply Finset.sum_congr rfl
    intro _ mem
    rw [setThread_of_ne (Finset.ne_of_mem_erase mem)]
  rw [rest, setThread_self] at split
  rw [MemProc.owns, MemProc.pointers, pointed_cons, pointed_cons, pointed_finRange, ← split]
  change tally p.trapframe.toList + (tally p.usageTime.toList + _) + p.space vm = _
  rw [MemProc.others]
  abel

theorem owns_thread (t : ThreadId) :
    p.owns vm = tally (p.threads t).trapframe.toList + p.others t vm := by
  rw [← owns_setThread, MemProc.setThread, update_eq_self]

/-- One thread's trapframe changes. -/
theorem Became.setThread {thread : MemThread} (ok : p.Ok vm) (live : p.life = .live)
    (sep : L.Owns vm (p.owns vm))
    (free : thread.state = .free ∨ p.currentThread = none → thread.trapframe = none)
    (moves : Moves (tally (p.threads t).trapframe.toList) (tally thread.trapframe.toList) vm vm') :
    Became vm p vm' (p.setThread t thread) := by
  rw [owns_thread t, MemProc.others, ← add_assoc] at sep
  have beside : L.Owns vm
      (tally (p.threads t).trapframe.toList + p.space vm) := by
    rw [add_right_comm] at sep
    exact sep.left
  obtain ⟨same, kept⟩ := space_kept moves beside
  constructor
  · rw [owns_thread t, owns_setThread, MemProc.others, MemProc.others, same]
    exact moves.add _
  · constructor
    · exact kept ok.space
    · intro t' isFree
      by_cases here : t' = t
      · rw [here, setThread_self] at isFree ⊢
        exact free (.inl isFree)
      · rw [setThread_of_ne here] at isFree ⊢
        exact ok.threads t' isFree
    · intro none t'
      by_cases here : t' = t
      · rw [here, setThread_self]
        exact free (.inr none)
      · rw [setThread_of_ne here]
        exact ok.single none t'
    · exact fun unused => (not_unused live unused).elim
    · exact ok.used
  · rfl

/-- The threads change, but not their trapframes. -/
theorem Became.relabel (ok : p.Ok vm) (live : p.life = .live)
    (same : p' = { p with threads := p'.threads, currentThread := p'.currentThread })
    (trapframes : ∀ t, (p'.threads t).trapframe = (p.threads t).trapframe)
    (free : ∀ t, (p'.threads t).state = .free → (p.threads t).state = .free)
    (cur : p'.currentThread = none → p.currentThread = none) : Became vm p vm p' := by
  have pointers : p'.pointers = p.pointers := by
    rw [MemProc.pointers, MemProc.pointers, same]
    simp only [trapframes]
  have space : p'.space vm = p.space vm := by
    rw [same]
    rfl
  have life : p'.life = .live := by
    rw [same]
    exact live
  constructor
  · rw [MemProc.owns, MemProc.owns, pointers, space]
    exact Moves.refl
  · constructor
    · rw [same]
      exact ok.space
    · intro t isFree
      rw [trapframes]
      exact ok.threads t (free t isFree)
    · intro none t
      rw [trapframes]
      exact ok.single (cur none) t
    · exact fun unused => (not_unused life unused).elim
    · rw [same]
      exact ok.used
  · rw [life, live]

theorem Became.trans {vm'' : Vm} {p'' : MemProc} (first : Became vm p vm' p')
    (second : Became vm' p' vm'' p'') : Became vm p vm'' p'' :=
  ⟨first.moves.trans second.moves, second.ok, second.life.trans first.life⟩

section

variable (ok : p.Ok vm) (live : p.life = .live) (sep : L.Owns vm (p.owns vm))
include ok live sep

/-- A thread is freed with its trapframe. -/
theorem freethread_became {value : Int} :
    wp (do
        let freed ← freethread L (p.threads t)
        pure (p.setThread t freed, value))
      (fun res vm' => Became vm p vm' res.1) Never vm := by
  have own : L.Owns vm (tally (p.threads t).trapframe.toList) := by
    rw [owns_thread t] at sep
    exact sep.left
  apply wp_seq (freethread_spec own)
  rintro _ _ ⟨rfl, moves⟩
  exact Became.setThread ok live sep (fun _ => rfl) moves

/-- The second half of `create_thread`. -/
theorem createSecond_spec {main : Bool} (cur : p.currentThread ≠ none) :
    wp (createSecond L p main) (fun res vm' => Became vm p vm' res.1) Never vm := by
  rw [createSecond]
  cases found : (List.finRange maxThread).find? fun t => (p.threads t).state = .free with
  | none => exact Became.refl ok
  | some t =>
    have isFree : (p.threads t).state = .free := by
      have here := List.find?_some found
      exact of_decide_eq_true here
    have noFrame : (p.threads t).trapframe = none := ok.threads t isFree
    apply wp_seq kalloc_spec
    intro taken _ moves
    cases taken with
    | none =>
      have failed : p.setThread t { p.threads t with trapframe := none } = p := by
        rw [← noFrame, MemProc.setThread, update_eq_self]
      rw [← zero_add (p.owns vm)] at sep
      have became := Became.beside ok sep moves
      rw [zero_add] at sep
      rw [failed]
      dsimp only
      split
      · apply wp_imp (freethread_became became.ok live (became.moves.separate sep))
        intro _ _ freed
        exact became.trans freed
      · exact became
    | some =>
      apply Became.setThread ok live sep
      · rintro (⟨⟨⟩⟩ | none)
        exact (cur none).elim
      · rw [noFrame]
        exact moves

/-- `create_thread`. -/
theorem createThread_spec :
    wp (createThread L p) (fun res vm' => Became vm p vm' res.1) Never vm := by
  rw [createThread]
  cases cur : p.currentThread with
  | some t =>
    apply createSecond_spec ok live sep
    rw [cur]
    exact Option.some_ne_none t
  | none =>
    have noFrame := ok.single cur 0
    apply wp_seq kalloc_spec
    intro taken vm1 moves
    cases taken with
    | none =>
      have failed : p.setThread 0 { p.threads 0 with trapframe := none } = p := by
        rw [← noFrame, MemProc.setThread, update_eq_self]
      rw [← zero_add (p.owns vm)] at sep
      rw [failed]
      exact Became.beside ok sep moves
    | some page =>
      -- The calling code becomes thread 0; until then no thread has a trapframe.
      have entered : Became vm p vm { p with currentThread := some 0 } :=
        Became.relabel ok live rfl (fun _ => rfl) (fun _ isFree => isFree) (by rintro ⟨⟩)
      have first : Became vm { p with currentThread := some 0 } vm1
          (MemProc.setThread { p with currentThread := some 0 } 0
            { state := .runnable, trapframe := some page, id := 1, join := 0 }) := by
        apply Became.setThread entered.ok live (entered.moves.separate sep)
        · rintro (⟨⟨⟩⟩ | ⟨⟨⟩⟩)
        change Moves (tally (p.threads 0).trapframe.toList) _ vm vm1
        rw [noFrame]
        exact moves
      have sofar := entered.trans first
      apply wp_imp (createSecond_spec sofar.ok live (sofar.moves.separate sep)
        (Option.some_ne_none _))
      intro _ _ second
      exact sofar.trans second

end

variable (tid : Int) (ok : p.Ok vm) (live : p.life = .live)
include tid ok live

theorem wakeJoined_became : Became vm p vm (wakeJoined p tid) := by
  have woken : ∀ t, (wakeJoined p tid).threads t = if (p.threads t).join = tid then
      { p.threads t with state := .runnable, join := 0 } else p.threads t := fun _ => rfl
  apply Became.relabel ok live rfl
  · intro t
    rw [woken]
    split
    · rfl
    · rfl
  · intro t
    rw [woken]
    split
    · rintro ⟨⟩
    · exact fun isFree => isFree
  · exact fun none => none

/-- `exit_t`. -/
theorem exitT_spec (sep : L.Owns vm (p.owns vm)) :
    wp (exitT L p tid) (fun res vm' => Became vm p vm' res.1) Never vm := by
  have woken := wakeJoined_became tid ok live
  rw [exitT]
  split
  · exact woken
  split
  · exact woken
  apply wp_imp (freethread_became woken.ok live (woken.moves.separate sep))
  intro _ _ freed
  exact woken.trans freed

/-- `exit_thread`; without a current thread, `exit_thread(-1)` reads a null pointer. -/
theorem exitThread_spec (sep : L.Owns vm (p.owns vm)) :
    wp (exitThread L p tid) (fun res vm' => Became vm p vm' res.1)
      (fun e => e = .nullPointer ∧ tid = -1) vm := by
  rw [exitThread]
  split
  · rename_i cur
    split
    · exact ⟨rfl, cur⟩
    · exact wp_mono (exitT_spec _ ok live sep) (fun _ _ became => became)
        fun _ failed => failed.elim
  · exact wp_mono (exitT_spec _ ok live sep) (fun _ _ became => became)
      fun _ failed => failed.elim

end Pages

end CustomXv6

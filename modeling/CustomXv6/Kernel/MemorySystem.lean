/-
Module: CustomXv6.Kernel.MemorySystem
Purpose: The system calls that move physical pages, over the whole process table.
Trusted boundary: human-reviewed spec
Main exports: MemSys, MemCall.run, MemSys.step
-/
import CustomXv6.Kernel.ProcessPages

namespace CustomXv6

open PageHeap
open Function

namespace Pages

/-!
Each system call is one step.  Files are kept as far as pipes are concerned: a
`struct file` without a pipe is one of type FD_NONE, FD_INODE or FD_DEVICE.  The
two flags of a pipe are kept beside the page that holds the pipe.
-/

/-! ### The boot -/

/-- `p + PGSIZE <= pa_end`.  Irreducible, so that the sum is not computed with. -/
@[irreducible] def pageFits (p paEnd : UInt64) : Bool := decide (p + pgsize ≤ paEnd)

theorem pageFits_iff {p paEnd : UInt64} : pageFits p paEnd = true ↔ p + pgsize ≤ paEnd := by
  unfold pageFits
  exact decide_eq_true_iff

def freerange (L : Layout) (paEnd : UInt64) : Nat → UInt64 → VmM Unit
  | 0, p => if pageFits p paEnd then throw .unbounded else pure ()
  | rounds + 1, p =>
    if pageFits p paEnd then do
      kfree L p
      freerange L paEnd rounds (p + pgsize)
    else pure ()

def kinit (L : Layout) : VmM Unit := freerange L phystop 32768 (pgroundup L.kend)

/-- The pages the kernel takes for itself before the first process: its page
table, the kernel stacks and the queue of the disk.  A null pointer stops it. -/
def takePages : Nat → VmM (List UInt64)
  | 0 => pure []
  | n + 1 => do
    match ← kalloc with
    | none => throw .nullPointer
    | some page =>
      let pages ← takePages n
      pure (page :: pages)

/-! ### The state -/

/-- `struct file`; `pipe` is not null where the type is FD_PIPE. -/
structure MemFile where
  ref : Nat := 0
  pipe : Option UInt64 := none
  writable : Bool := false

/-- `readopen` and `writeopen` of a `struct pipe`. -/
structure PipeEnds where
  readopen : Bool := false
  writeopen : Bool := false

/-- Memory, the process table and the file table. -/
structure MemSys where
  vm : Vm
  procs : ProcId → MemProc
  parent : ProcId → Option ProcId
  ofile : ProcId → Fin nofile → Option (Fin nfile)
  files : Fin nfile → MemFile
  pipes : UInt64 → PipeEnds

inductive MemPanic where
  | vm (e : VmPanic)
  /-- `init exiting` -/
  | initExiting
  /-- `filedup` -/
  | filedup
  /-- `fileclose` -/
  | fileclose
deriving DecidableEq

abbrev MemM := StateT MemSys (Except MemPanic)

/-- The process `userinit` makes. -/
def initproc : ProcId := 0

/-- A program that works on memory only. -/
def onVm {α : Type} (prog : VmM α) : MemM α := fun s =>
  match prog s.vm with
  | .ok (value, vm) => .ok (value, { s with vm := vm })
  | .error e => .error (.vm e)

/-- A program that works on memory and one entry of the process table. -/
def onProc {α : Type} (p : ProcId) (prog : MemProc → VmM (MemProc × α)) : MemM α := do
  let s ← get
  let res ← onVm (prog (s.procs p))
  modify fun s => { s with procs := update s.procs p res.1 }
  pure res.2

/-! ### Files and pipes -/

def filealloc : MemM (Option (Fin nfile)) := do
  let s ← get
  match (List.finRange nfile).find? fun f => (s.files f).ref = 0 with
  | none => pure none
  | some f =>
    set { s with files := update s.files f { s.files f with ref := 1 } }
    pure (some f)

def filedup (f : Fin nfile) : MemM Unit := do
  let s ← get
  if (s.files f).ref < 1 then throw .filedup
  else set { s with files := update s.files f { s.files f with ref := (s.files f).ref + 1 } }

def PipeEnds.close (ends : PipeEnds) (writable : Bool) : PipeEnds :=
  if writable then { ends with writeopen := false } else { ends with readopen := false }

def pipeclose (L : Layout) (pi : UInt64) (writable : Bool) : MemM Unit := do
  let s ← get
  set { s with pipes := update s.pipes pi ((s.pipes pi).close writable) }
  if ((s.pipes pi).close writable).readopen = false ∧
      ((s.pipes pi).close writable).writeopen = false then onVm (kfree L pi)
  else pure ()

def fileclose (L : Layout) (f : Fin nfile) : MemM Unit := do
  let s ← get
  if (s.files f).ref < 1 then throw .fileclose
  else if 1 < (s.files f).ref then
    set { s with files := update s.files f { s.files f with ref := (s.files f).ref - 1 } }
  else do
    set { s with files := update s.files f { s.files f with ref := 0, pipe := none } }
    match (s.files f).pipe with
    | some pi => pipeclose L pi (s.files f).writable
    | none => pure ()

/-- The label `bad` of `pipealloc`, before there is a pipe. -/
def pipeallocBad (L : Layout) : List (Fin nfile) → MemM (Option (Fin nfile × Fin nfile))
  | [] => pure none
  | f :: rest => do
    fileclose L f
    pipeallocBad L rest

/-- `pipealloc`: the two files of a new pipe. -/
def pipealloc (L : Layout) : MemM (Option (Fin nfile × Fin nfile)) := do
  match ← filealloc with
  | none => pipeallocBad L []
  | some f0 =>
    match ← filealloc with
    | none => pipeallocBad L [f0]
    | some f1 =>
      match ← onVm kalloc with
      | none => pipeallocBad L [f0, f1]
      | some pi =>
        modify fun s =>
          { s with
            pipes := update s.pipes pi { readopen := true, writeopen := true }
            files := update
              (update s.files f0 { s.files f0 with pipe := some pi, writable := false }) f1
              { s.files f1 with pipe := some pi, writable := true } }
        pure (some (f0, f1))

def setFd (p : ProcId) (fd : Fin nofile) (f : Option (Fin nfile)) : MemM Unit :=
  modify fun s => { s with ofile := update s.ofile p (update (s.ofile p) fd f) }

def fdalloc (p : ProcId) (f : Fin nfile) : MemM (Option (Fin nofile)) := do
  let s ← get
  match (List.finRange nofile).find? fun fd => s.ofile p fd = none with
  | none => pure none
  | some fd =>
    setFd p fd (some f)
    pure (some fd)

/-- `copyout` to the memory of process `p`. -/
def copyoutTo (p : ProcId) (dstva : UInt64) (data : UInt64 → Nat → UInt64) (len : UInt64) :
    MemM Bool :=
  onProc p fun q =>
    match q.pagetable with
    | none => throw .nullPointer
    | some pagetable => do
      let done ← copyout pagetable dstva data len
      pure (q, done)

/-- The error paths of `sys_pipe`: descriptors that were set are cleared and both
files are closed. -/
def pipeBad (L : Layout) (p : ProcId) (rf wf : Fin nfile) : List (Fin nofile) → MemM Bool
  | [] => do
    fileclose L rf
    fileclose L wf
    pure false
  | fd :: rest => do
    setFd p fd none
    pipeBad L p rf wf rest

/-- `sys_pipe`, with the contents of the user pages after the two copies. -/
def sysPipe (L : Layout) (p : ProcId) (fdarray : UInt64) (data : UInt64 → Nat → UInt64) :
    MemM Bool := do
  match ← pipealloc L with
  | none => pure false
  | some (rf, wf) =>
    match ← fdalloc p rf with
    | none => pipeBad L p rf wf []
    | some fd0 =>
      match ← fdalloc p wf with
      | none => pipeBad L p rf wf [fd0]
      | some fd1 =>
        if ← copyoutTo p fdarray data 4 then
          if ← copyoutTo p (fdarray + 4) data 4 then pure true
          else pipeBad L p rf wf [fd0, fd1]
        else pipeBad L p rf wf [fd0, fd1]

/-- The end of `sys_open`: a file without a pipe and a descriptor for it. -/
def openFd (L : Layout) (p : ProcId) : MemM Bool := do
  match ← filealloc with
  | none => pure false
  | some f =>
    match ← fdalloc p f with
    | none =>
      fileclose L f
      pure false
    | some _ => pure true

def sysDup (p : ProcId) (fd : Fin nofile) : MemM Bool := do
  let s ← get
  match s.ofile p fd with
  | none => pure false
  | some f =>
    match ← fdalloc p f with
    | none => pure false
    | some _ =>
      filedup f
      pure true

def sysClose (L : Layout) (p : ProcId) (fd : Fin nofile) : MemM Bool := do
  let s ← get
  match s.ofile p fd with
  | none => pure false
  | some f =>
    setFd p fd none
    fileclose L f
    pure true

/-! ### Processes -/

def dupFiles (p np : ProcId) : List (Fin nofile) → MemM Unit
  | [] => pure ()
  | fd :: rest => do
    let s ← get
    match s.ofile p fd with
    | none => dupFiles p np rest
    | some f =>
      filedup f
      setFd np fd (some f)
      dupFiles p np rest

/-- `fork` and `fork_deadline`, with the slot `allocproc` finds. -/
def sysFork (L : Layout) (p : ProcId) : MemM Bool := do
  let s ← get
  match (List.finRange nproc).find? fun np => (s.procs np).life = .unused with
  | none => pure false
  | some np =>
    if ← onProc np (fork L (s.procs p)) then do
      dupFiles p np (List.finRange nofile)
      modify fun s => { s with parent := update s.parent np (some p) }
      pure true
    else do
      -- `freeproc` has cleared the slot
      modify fun s => { s with parent := update s.parent np none }
      pure false

def closeFiles (L : Layout) (p : ProcId) : List (Fin nofile) → MemM Unit
  | [] => pure ()
  | fd :: rest => do
    let s ← get
    match s.ofile p fd with
    | none => closeFiles L p rest
    | some f =>
      fileclose L f
      setFd p fd none
      closeFiles L p rest

def sysExit (L : Layout) (p : ProcId) : MemM Unit := do
  if p = initproc then throw .initExiting
  else do
    closeFiles L p (List.finRange nofile)
    modify fun s =>
      { s with
        procs := update s.procs p { s.procs p with life := .zombie }
        parent := fun pp => if s.parent pp = some p then some initproc else s.parent pp }

/-- What `wait` does with a child that has exited. -/
def reap (L : Layout) (pp : ProcId) : MemM Unit := do
  onProc pp fun q => do
    let freed ← freeproc L q
    pure (freed, ())
  modify fun s => { s with parent := update s.parent pp none }

/-- `wait`, with the contents of the user page after the copy of the exit status. -/
def sysWait (L : Layout) (p : ProcId) (addr : UInt64) (data : UInt64 → Nat → UInt64) :
    MemM Unit := do
  let s ← get
  match (List.finRange nproc).find? fun pp =>
      s.parent pp = some p ∧ (s.procs pp).life = .zombie with
  | none => pure ()
  | some pp =>
    if addr = 0 then reap L pp
    else if ← copyoutTo p addr data 4 then reap L pp
    else pure ()

/-- The scheduler and `join_thread` between two calls: other threads of `p` become
current, and their states change.  They free no thread, and a process that has
no threads keeps having none. -/
def reschedule (cur : ThreadId) (states : ThreadId → ThreadState) (join : ThreadId → Int)
    (p : MemProc) : MemProc :=
  match p.currentThread with
  | none => p
  | some _ =>
    { p with
      currentThread := some cur
      threads := fun t =>
        { p.threads t with
          state := if states t = .free then (p.threads t).state else states t
          join := join t } }

/-- The calls, with what they are given from outside: the file and the arguments
of `exec`, addresses, and contents of the pages they write. -/
inductive MemCall where
  | fork
  | forkDeadline
  | exec (file : Option ElfFile) (data : UInt64 → Nat → UInt64) (args : List (Option UInt64))
      (terminated : Bool)
  | exit
  | wait (addr : UInt64) (data : UInt64 → Nat → UInt64)
  | sbrk (n : Int32)
  | pipe (fdarray : UInt64) (data : UInt64 → Nat → UInt64)
  | «open»
  | dup (fd : Fin nofile)
  | close (fd : Fin nofile)
  | createThread
  | exitThread (tid : Int)
  | reschedule (cur : ThreadId) (states : ThreadId → ThreadState) (join : ThreadId → Int)

def MemCall.run (L : Layout) (p : ProcId) : MemCall → MemM Unit
  | .fork | .forkDeadline => do
    let _ ← sysFork L p
  | .exec file data args terminated => do
    let _ ← onProc p fun q => sysExec L q file data args terminated
  | .exit => sysExit L p
  | .wait addr data => sysWait L p addr data
  | .sbrk n => do
    let _ ← onProc p fun q => growproc L q n
  | .pipe fdarray data => do
    let _ ← sysPipe L p fdarray data
  | .open => do
    let _ ← openFd L p
  | .dup fd => do
    let _ ← sysDup p fd
  | .close fd => do
    let _ ← sysClose L p fd
  | .createThread => do
    let _ ← onProc p (Pages.createThread L)
  | .exitThread tid => do
    let _ ← onProc p fun q => Pages.exitThread L q tid
  | .reschedule cur states join =>
    modify fun s =>
      { s with procs := update s.procs p (Pages.reschedule cur states join (s.procs p)) }

def MemSys.step (L : Layout) (s : MemSys) : ProcId × MemCall → Option MemSys
  | (p, call) =>
    if (s.procs p).life = .live then
      match call.run L p s with
      | .ok (_, s') => some s'
      | .error _ => none
    else none

/-- The state after the boot: `kinit` has put the pages `pool` on the free list,
the kernel has taken the pages `kernel`, and the first process is there with its
page. -/
structure Booted (L : Layout) (pool kernel : List UInt64) (s : MemSys) : Prop where
  processes : ∃ (mem : UInt64 → Nat → UInt64) (vm0 vm1 : Vm) (n : Nat) (code : Nat → UInt64)
    (init : MemProc), kinit L ⟨[], mem⟩ = .ok ((), vm0) ∧ vm0.freelist = pool ∧
      takePages n vm0 = .ok (kernel, vm1) ∧
      userinit L {} code vm1 = .ok ((init, true), s.vm) ∧
      s.procs = update (fun _ => {}) initproc init
  files : s.files = fun _ => {}

end Pages

end CustomXv6

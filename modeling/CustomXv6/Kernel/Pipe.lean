/-
Module: CustomXv6.Kernel.Pipe
Purpose: Pipes (kernel/pipe.c) are bounded first-in first-out queues.
Trusted boundary: human-reviewed spec
Main exports: PipeSys.step, pipe_fifo, piperead_exact
-/
import CustomXv6.Lib.RingBuffer
import CustomXv6.Lib.Transition

namespace CustomXv6

open Function
open Transition RingBuffer

/-!
A thread in `pipewrite` or `piperead` holds `pi->lock` from one sleep to the next.  A step is
one round of a loop, or one of the places at which the lock is taken or given up.
-/

/-! ### The pipe -/

abbrev pipesize : Nat := 512

/-- `struct pipe`, without its lock. -/
structure Pipe where
  data : Nat → UInt8
  nread : UInt32 := 0
  nwrite : UInt32 := 0
  readopen : Bool := true
  writeopen : Bool := true

/-- `pi->data[pi->nwrite++ % PIPESIZE] = ch`. -/
def Pipe.put (pi : Pipe) (ch : UInt8) : Pipe :=
  { pi with data := update pi.data (pi.nwrite.toNat % pipesize) ch, nwrite := pi.nwrite + 1 }

/-- The byte that `ch = pi->data[pi->nread++ % PIPESIZE]` reads. -/
def Pipe.front (pi : Pipe) : UInt8 := pi.data (pi.nread.toNat % pipesize)

/-- What `ch = pi->data[pi->nread++ % PIPESIZE]` leaves. -/
def Pipe.take (pi : Pipe) : Pipe := { pi with nread := pi.nread + 1 }

/-- The addresses `&pi->nread` and `&pi->nwrite` at which threads sleep. -/
inductive PipeChan where
  | nread
  | nwrite
deriving DecidableEq, Repr

/-- Where a thread is.  The user's memory is a function of the offset: the byte
to write, or none where `copyin` fails, and whether `copyout` succeeds. -/
inductive PipePc where
  | returned (r : Int)
  | writeAcquire (src : Nat → Option UInt8) (n : Int) (i : Nat)
  | writeLoop (src : Nat → Option UInt8) (n : Int) (i : Nat)
  | writeSleep (src : Nat → Option UInt8) (n : Int) (i : Nat)
  | readAcquire (dst : Nat → Bool) (n : Int)
  | readWait (dst : Nat → Bool) (n : Int)
  | readSleep (dst : Nat → Bool) (n : Int)
  | readLoop (dst : Nat → Bool) (n : Int) (i : Nat)

/-- A pipe with the threads that use it.  `put` and `taken` are the bytes stored
into and read out of `data[]` so far. -/
structure PipeSys where
  pipe : Pipe
  lock : Option Nat := none
  killed : Nat → Bool := fun _ => false
  pc : Nat → PipePc := fun _ => .returned 0
  put : List UInt8 := []
  taken : List UInt8 := []

namespace PipeSys

/-- What `pipealloc` leaves, in a page with any contents. -/
def alloc (page : Nat → UInt8) : PipeSys where
  pipe := { data := page }

def goto (s : PipeSys) (t : Nat) (pc : PipePc) : PipeSys := { s with pc := update s.pc t pc }

/-- `wakeup`: threads that sleep there go on to take the lock again. -/
def wakeup (s : PipeSys) (chan : PipeChan) : PipeSys :=
  { s with pc := fun t =>
      match s.pc t, chan with
      | .writeSleep src n i, .nwrite => .writeAcquire src n i
      | .readSleep dst n, .nread => .readAcquire dst n
      | pc, _ => pc }

def release (s : PipeSys) : PipeSys := { s with lock := none }

/-- A step of the call that thread `t` is in. -/
def advance (s : PipeSys) (t : Nat) : Option PipeSys :=
  match s.pc t with
  | .returned _ => none
  | .writeAcquire src n i =>
    if s.lock = none then
      some ({ s with lock := some t }.goto t (.writeLoop src n i))
    else none
  | .writeLoop src n i =>
    if s.lock ≠ some t then none
    else if (i : Int) < n then
      if s.pipe.readopen = false ∨ s.killed t = true then
        some (s.release.goto t (.returned (-1)))
      else if s.pipe.nwrite = s.pipe.nread + UInt32.ofNat pipesize then
        some ((s.wakeup .nread).release.goto t (.writeSleep src n i))
      else
        match src i with
        | none => some ((s.wakeup .nread).release.goto t (.returned i))
        | some ch =>
          some ({ s with pipe := s.pipe.put ch, put := s.put ++ [ch] }.goto t
            (.writeLoop src n (i + 1)))
    else
      some ((s.wakeup .nread).release.goto t (.returned i))
  | .writeSleep _ _ _ => none
  | .readAcquire dst n =>
    if s.lock = none then
      some ({ s with lock := some t }.goto t (.readWait dst n))
    else none
  | .readWait dst n =>
    if s.lock ≠ some t then none
    else if s.pipe.nread = s.pipe.nwrite ∧ s.pipe.writeopen = true then
      if s.killed t then
        some (s.release.goto t (.returned (-1)))
      else
        some (s.release.goto t (.readSleep dst n))
    else
      some (s.goto t (.readLoop dst n 0))
  | .readSleep _ _ => none
  | .readLoop dst n i =>
    if s.lock ≠ some t then none
    else if (i : Int) < n ∧ s.pipe.nread ≠ s.pipe.nwrite then
      let taken := { s with pipe := s.pipe.take, taken := s.taken ++ [s.pipe.front] }
      if dst i then
        some (taken.goto t (.readLoop dst n (i + 1)))
      else
        some ((taken.wakeup .nwrite).release.goto t (.returned i))
    else
      some ((s.wakeup .nwrite).release.goto t (.returned i))

/-- `pipeclose`, between two other steps. -/
def close (s : PipeSys) (writable : Bool) : Option PipeSys :=
  if s.lock ≠ none then none
  else if writable then
    some ({ s with pipe := { s.pipe with writeopen := false } }.wakeup .nread)
  else
    some ({ s with pipe := { s.pipe with readopen := false } }.wakeup .nwrite)

/-- `kill` of the process of thread `t`, which also ends its sleep. -/
def kill (s : PipeSys) (t : Nat) : PipeSys :=
  let awake := match s.pc t with
    | .writeSleep src n i => .writeAcquire src n i
    | .readSleep dst n => .readAcquire dst n
    | pc => pc
  { s with killed := update s.killed t true }.goto t awake

end PipeSys

inductive PipeAction where
  | pipewrite (t : Nat) (src : Nat → Option UInt8) (n : Int)
  | piperead (t : Nat) (dst : Nat → Bool) (n : Int)
  | advance (t : Nat)
  | close (writable : Bool)
  | kill (t : Nat)

/-- One step; once both ends are closed the page has been freed and there is no
pipe any more. -/
def PipeSys.step (s : PipeSys) (act : PipeAction) : Option PipeSys :=
  if s.pipe.readopen = false ∧ s.pipe.writeopen = false then none
  else
    match act with
    | .pipewrite t src n =>
      match s.pc t with
      | .returned _ => some (s.goto t (.writeAcquire src n 0))
      | _ => none
    | .piperead t dst n =>
      match s.pc t with
      | .returned _ => some (s.goto t (.readAcquire dst n))
      | _ => none
    | .advance t => s.advance t
    | .close writable => s.close writable
    | .kill t => some (s.kill t)

/-! ### What a step does to the queue -/

def Pipe.contents (pi : Pipe) : List UInt8 := between pi.data pipesize pi.nread pi.nwrite

/-- What any step does to the ring and to the bytes put in and taken out: nothing,
or one byte goes in and there was room for it, or the first byte goes out. -/
inductive PipeChange (s s' : PipeSys) : Prop where
  | same (data : s'.pipe.data = s.pipe.data) (nread : s'.pipe.nread = s.pipe.nread)
      (nwrite : s'.pipe.nwrite = s.pipe.nwrite) (put : s'.put = s.put) (taken : s'.taken = s.taken)
  | put (ch : UInt8) (room : s.pipe.nwrite ≠ s.pipe.nread + UInt32.ofNat pipesize)
      (pipe : s'.pipe = s.pipe.put ch) (put : s'.put = s.put ++ [ch]) (taken : s'.taken = s.taken)
  | take (some : s.pipe.nread ≠ s.pipe.nwrite) (pipe : s'.pipe = s.pipe.take)
      (put : s'.put = s.put) (taken : s'.taken = s.taken ++ [s.pipe.front])

theorem PipeSys.advance_change {s s' : PipeSys} {t : Nat} (advanced : s.advance t = some s') :
    PipeChange s s' := by
  unfold PipeSys.advance at advanced
  split at advanced
  case h_3 src n i _ =>
    -- `pipewrite` at the head of its loop.
    split at advanced
    · cases advanced
    split at advanced
    · split at advanced
      · cases advanced
        exact .same rfl rfl rfl rfl rfl
      split at advanced
      · cases advanced
        exact .same rfl rfl rfl rfl rfl
      rename_i room
      split at advanced
      · cases advanced
        exact .same rfl rfl rfl rfl rfl
      · cases advanced
        exact .put _ room rfl rfl rfl
    · cases advanced
      exact .same rfl rfl rfl rfl rfl
  case h_8 dst n i _ =>
    -- `piperead` at the head of its second loop.
    split at advanced
    · cases advanced
    split at advanced
    · rename_i continues
      split at advanced
      · cases advanced
        exact .take continues.2 rfl rfl rfl
      · cases advanced
        exact .take continues.2 rfl rfl rfl
    · cases advanced
      exact .same rfl rfl rfl rfl rfl
  case h_6 =>
    split at advanced
    · cases advanced
    split at advanced
    · split at advanced
      · cases advanced
        exact .same rfl rfl rfl rfl rfl
      · cases advanced
        exact .same rfl rfl rfl rfl rfl
    · cases advanced
      exact .same rfl rfl rfl rfl rfl
  case h_2 | h_5 =>
    split at advanced
    · cases advanced
      exact .same rfl rfl rfl rfl rfl
    · cases advanced
  case h_1 | h_4 | _ => cases advanced

/-- What a step can do, whatever it is. -/
theorem PipeSys.step_change {s s' : PipeSys} {act : PipeAction}
    (ran : s.step act = some s') : PipeChange s s' := by
  unfold PipeSys.step at ran
  split at ran
  · cases ran
  cases act with
  | pipewrite =>
    dsimp only at ran
    split at ran
    · cases ran
      exact .same rfl rfl rfl rfl rfl
    · cases ran
  | piperead =>
    dsimp only at ran
    split at ran
    · cases ran
      exact .same rfl rfl rfl rfl rfl
    · cases ran
  | advance => exact PipeSys.advance_change ran
  | close =>
    dsimp only [PipeSys.close] at ran
    split at ran
    · cases ran
    split at ran
    · cases ran
      exact .same rfl rfl rfl rfl rfl
    · cases ran
      exact .same rfl rfl rfl rfl rfl
  | kill =>
    cases ran
    exact .same rfl rfl rfl rfl rfl

/-! ### The queue over whole runs -/

/-- The ring holds at most `PIPESIZE` bytes, and these are the bytes that have
been put in and not taken out. -/
structure PipeSys.Fifo (s : PipeSys) : Prop where
  bounded : (s.pipe.nwrite - s.pipe.nread).toNat ≤ pipesize
  queued : s.put = s.taken ++ s.pipe.contents

theorem PipeSys.alloc_fifo (page : Nat → UInt8) : (PipeSys.alloc page).Fifo := by
  constructor
  · exact (by decide : (0 - 0 : UInt32).toNat ≤ pipesize)
  · simp [PipeSys.alloc, Pipe.contents]

/-- A counter that is not `PIPESIZE` ahead is less far ahead. -/
theorem Pipe.room {pi : Pipe} (bounded : (pi.nwrite - pi.nread).toNat ≤ pipesize)
    (notFull : pi.nwrite ≠ pi.nread + UInt32.ofNat pipesize) :
    (pi.nwrite - pi.nread).toNat < pipesize := by
  apply lt_of_le_of_ne bounded
  intro full
  apply notFull
  have distance : pi.nwrite - pi.nread = UInt32.ofNat pipesize := UInt32.toNat.inj full
  rw [← distance, UInt32.add_comm, UInt32.sub_add_cancel]

theorem PipeSys.Fifo.change {s s' : PipeSys} (fifo : s.Fifo) (change : PipeChange s s') :
    s'.Fifo := by
  have divides : pipesize ∣ 2 ^ 32 := by decide
  cases change with
  | same data nread nwrite put taken =>
    constructor
    · rw [nread, nwrite]
      exact fifo.bounded
    · rw [put, taken, Pipe.contents, data, nread, nwrite]
      exact fifo.queued
  | put ch notFull pipe put taken =>
    have room := Pipe.room fifo.bounded notFull
    constructor
    · rw [pipe]
      change (s.pipe.nwrite + 1 - s.pipe.nread).toNat ≤ pipesize
      rw [distance_succ (lt_trans room (by decide))]
      exact room
    · have appended : (s.pipe.put ch).contents = s.pipe.contents ++ [ch] :=
        between_write divides (by decide) room ch
      rw [put, taken, pipe, appended, fifo.queued, List.append_assoc]
  | take ne pipe put taken =>
    have one := distance_advance ne
    constructor
    · have bounded := fifo.bounded
      rw [pipe, Pipe.take]
      dsimp only
      omega
    · have removed : s.pipe.contents = s.pipe.front :: s.pipe.take.contents :=
        between_advance divides ne
      rw [put, taken, pipe, fifo.queued, removed, List.append_assoc]
      rfl

/-- In every run of any number of writers and readers, however often the counters wrap around,
the ring holds at most `PIPESIZE` bytes and the bytes taken out are the first of those put in,
in their order. -/
theorem pipe_fifo {page : Nat → UInt8} {s : PipeSys}
    (run : Run PipeSys.step (fun _ _ => True) (PipeSys.alloc page) s) :
    (s.pipe.nwrite - s.pipe.nread).toNat ≤ pipesize ∧ s.taken <+: s.put ∧
      s.put = s.taken ++ s.pipe.contents := by
  have fifo : s.Fifo := by
    apply run.invariant (PipeSys.alloc_fifo page)
    intro _ _ _ fifo _ ran
    exact fifo.change (PipeSys.step_change ran)
  exact ⟨fifo.bounded, ⟨_, fifo.queued.symm⟩, fifo.queued⟩

/-- A writer is stopped after three bytes, and a reader whose second byte cannot be copied out
has taken two of them. -/
theorem pipe_fifo_interrupted : ∃ s, (Run PipeSys.step (fun _ _ => True)
      (PipeSys.alloc fun _ => 5) s ∧ s.put = [10, 11, 12] ∧ s.taken = [10, 11]) ∧
    (s.pipe.nwrite - s.pipe.nread).toNat ≤ pipesize ∧ s.taken <+: s.put := by
  have tested : ∃ s, Run PipeSys.step (fun _ _ => True) (PipeSys.alloc fun _ => 5) s ∧
      s.put = [10, 11, 12] ∧ s.taken = [10, 11] :=
    exists_run_of_runFrom _ _ [.piperead 2 (fun k => k == 0) 9, .advance 2, .advance 2,
        .pipewrite 1 (fun k => if k < 3 then some (UInt8.ofNat (10 + k)) else none) 8,
        .advance 1, .advance 1, .advance 1, .advance 1, .advance 1,
        .advance 2, .advance 2, .advance 2, .advance 2] (by decide +kernel)
  obtain ⟨s, run, bytes⟩ := tested
  have fifo := pipe_fifo run
  exact ⟨s, ⟨run, bytes⟩, fifo.1, fifo.2.1⟩

/-! ### One read -/

/-- The second loop of `piperead`, all of it with the lock held, from count `i` on
for at most `k` bytes: the pipe it leaves, the count it returns and the bytes that
reach the user, the first of them at `addr + i`. -/
def pipereadLoop (dst : Nat → Bool) : Pipe → Nat → Nat → Pipe × Nat × List UInt8
  | pi, i, 0 => (pi, i, [])
  | pi, i, k + 1 =>
    if pi.nread = pi.nwrite then (pi, i, [])
    else if dst i then
      let rest := pipereadLoop dst pi.take (i + 1) k
      (rest.1, rest.2.1, pi.front :: rest.2.2)
    else (pi.take, i, [])

/-- The steps of a thread in that loop do what it says. -/
theorem PipeSys.pipereadLoop_run {s : PipeSys} {t : Nat} {dst : Nat → Bool} {n : Int} {i k : Nat}
    (here : s.pc t = .readLoop dst n i) (locked : s.lock = some t) (left : (n - i).toNat = k) :
    ∃ s', Run PipeSys.advance (fun _ thread => thread = t) s s' ∧
      s'.pipe = (pipereadLoop dst s.pipe i k).1 ∧
      s'.pc t = .returned (pipereadLoop dst s.pipe i k).2.1 := by
  induction k generalizing s i with
  | zero =>
    have ran : s.advance t = some ((s.wakeup .nwrite).release.goto t (.returned i)) := by
      have done : ¬ (i : Int) < n := by omega
      simp [advance, here, locked, done]
    exact ⟨_, .single rfl ran, rfl, update_self _ _ _⟩
  | succ _ ih =>
    have more : (i : Int) < n := by omega
    by_cases empty : s.pipe.nread = s.pipe.nwrite
    · have ran : s.advance t = some ((s.wakeup .nwrite).release.goto t (.returned i)) := by
        simp [advance, here, locked, empty]
      rw [pipereadLoop, if_pos empty]
      exact ⟨_, .single rfl ran, rfl, update_self _ _ _⟩
    rw [pipereadLoop, if_neg empty]
    let taken := { s with pipe := s.pipe.take, taken := s.taken ++ [s.pipe.front] }
    by_cases mapped : dst i = true
    · have ran : s.advance t = some (taken.goto t (.readLoop dst n (i + 1))) := by
        simp [advance, here, locked, more, empty, mapped, taken]
      obtain ⟨s', run, pipe, ret⟩ :=
        ih (s := taken.goto t (.readLoop dst n (i + 1))) (i := i + 1) (update_self _ _ _) locked
          (by push_cast; omega)
      rw [if_pos mapped]
      exact ⟨s', .head rfl ran run, pipe, ret⟩
    have ran : s.advance t =
        some ((taken.wakeup .nwrite).release.goto t (.returned i)) := by
      simp [advance, here, locked, more, empty, mapped, taken]
    rw [if_neg mapped]
    exact ⟨_, .single rfl ran, rfl, update_self _ _ _⟩

/-- The bytes that a read of `k` bytes from `i` on takes out can all be copied. -/
def Pipe.Deliverable (pi : Pipe) (dst : Nat → Bool) (i k : Nat) : Prop :=
  ∀ j, j < k → j < pi.contents.length → dst (i + j) = true

/-- The loop delivers the first bytes of the ring.  They are the bytes it takes out, unless one
cannot be copied: that one is taken out as well. -/
theorem pipereadLoop_cases {dst : Nat → Bool} {pi : Pipe} {i k : Nat} :
    ∃ count, (pipereadLoop dst pi i k).2 = (i + count, pi.contents.take count) ∧
      ((pi.Deliverable dst i k ∧
          (pipereadLoop dst pi i k).1.contents = pi.contents.drop count) ∨
        (¬ pi.Deliverable dst i k ∧ count < pi.contents.length ∧
          (pipereadLoop dst pi i k).1.contents = pi.contents.drop (count + 1))) := by
  induction k generalizing pi i with
  | zero => exact ⟨0, rfl, .inl ⟨fun _ none => absurd none (Nat.not_lt_zero _), rfl⟩⟩
  | succ k ih =>
    by_cases empty : pi.nread = pi.nwrite
    · have nothing : pi.contents = [] := between_eq_nil.mpr empty
      rw [pipereadLoop, if_pos empty]
      refine ⟨0, rfl, .inl ⟨fun j _ present => ?_, rfl⟩⟩
      rw [nothing] at present
      cases present
    have first : pi.contents = pi.front :: pi.take.contents :=
      between_advance (by decide : pipesize ∣ 2 ^ 32) empty
    rw [pipereadLoop, if_neg empty]
    by_cases here : dst i = true
    · have deliverable : pi.Deliverable dst i (k + 1) ↔ pi.take.Deliverable dst (i + 1) k := by
        constructor
        · intro all j small present
          rw [Nat.add_assoc, Nat.add_comm 1 j]
          exact all (j + 1) (Nat.succ_lt_succ small) (by rw [first]; exact Nat.succ_lt_succ present)
        intro all j small present
        cases j with
        | zero => exact here
        | succ j =>
          rw [first] at present
          rw [← Nat.add_assoc, Nat.add_right_comm]
          exact all j (Nat.lt_of_succ_lt_succ small) (Nat.lt_of_succ_lt_succ present)
      obtain ⟨count, delivered, left⟩ := @ih pi.take (i + 1)
      rw [if_pos here, deliverable, first]
      dsimp only
      rw [delivered]
      refine ⟨count + 1, ?_, left.imp_right fun lost => ⟨lost.1, ?_, lost.2.2⟩⟩
      · rw [Nat.add_right_comm, Nat.add_assoc]
        rfl
      · exact Nat.succ_lt_succ lost.2.1
    · rw [if_neg here, first]
      refine ⟨0, rfl, .inr ⟨fun all => here ?_, Nat.succ_pos _, rfl⟩⟩
      exact all 0 k.succ_pos (by rw [first]; exact Nat.succ_pos _)

/-- A reader in its copy loop, for every contents of the ring and every count: the loop returns,
and if it returns `i`, then the user has got the first `i` bytes of the ring and all the others are
still in it exactly if every byte that the read takes out can be copied. -/
theorem piperead_exact {s : PipeSys} {t : Nat} {dst : Nat → Bool} {n : Int}
    (here : s.pc t = .readLoop dst n 0) (locked : s.lock = some t) :
    ∃ s' i, Run PipeSys.advance (fun _ thread => thread = t) s s' ∧
      s'.pc t = .returned ((i : Nat) : Int) ∧
      ((pipereadLoop dst s.pipe 0 n.toNat).2 = (i, s.pipe.contents.take i) ∧
        s'.pipe.contents = s.pipe.contents.drop i ↔
      ∀ j : Nat, j < n → j < s.pipe.contents.length → dst j = true) := by
  obtain ⟨s', run, pipe, ret⟩ :=
    PipeSys.pipereadLoop_run here locked (by simp : (n - (0 : Nat)).toNat = n.toNat)
  obtain ⟨i, delivered, outcome⟩ := @pipereadLoop_cases dst s.pipe 0 n.toNat
  have deliverable : s.pipe.Deliverable dst 0 n.toNat ↔
      ∀ j : Nat, j < n → j < s.pipe.contents.length → dst j = true := by
    simp [Pipe.Deliverable, Int.lt_toNat]
  rw [Nat.zero_add] at delivered
  rw [delivered] at ret
  refine ⟨s', i, run, ret, ?_⟩
  rw [pipe, ← deliverable]
  obtain ⟨all, left⟩ | ⟨notAll, lt, left⟩ := outcome
  · exact iff_of_true ⟨delivered, left⟩ all
  refine iff_of_false (fun both => ?_) notAll
  have lengths := congrArg List.length (left.symm.trans both.2)
  rw [List.length_drop, List.length_drop] at lengths
  omega

/-- A ring of three bytes, of which a reader wants two. -/
theorem piperead_exact_two :
    let s : PipeSys := {
      pipe := { data := UInt8.ofNat, nwrite := 3 }
      lock := some 1
      pc := fun _ => .readLoop (fun _ => true) 2 0 }
    ∃ s' i, Run PipeSys.advance (fun _ thread => thread = 1) s s' ∧
      s'.pc 1 = .returned ((i : Nat) : Int) ∧
      (pipereadLoop (fun _ => true) s.pipe 0 2).2 = (i, [0, 1, 2].take i) ∧
      s'.pipe.contents = [0, 1, 2].drop i := by
  intro s
  have three : s.pipe.contents = [0, 1, 2] := by decide +kernel
  rw [← three]
  obtain ⟨s', i, run, ret, exactly⟩ := piperead_exact (s := s) (n := 2) rfl rfl
  exact ⟨s', i, run, ret, exactly.mpr fun _ _ _ => rfl⟩

/-- The reader's buffer is not mapped: the read returns 0 and the byte in the ring is gone. -/
theorem piperead_drops_byte :
    ∃ s, (Run PipeSys.step (fun _ _ => True) (PipeSys.alloc fun _ => 5) s ∧
        s.put = [7] ∧ s.lock = some 2) ∧
      s.pc 2 = .readLoop (fun _ => false) 1 0 ∧ s.pipe.contents = [7] ∧
      ∃ s', s.advance 2 = some s' ∧ s'.pc 2 = .returned 0 ∧ s'.pipe.contents = [] := by
  refine ⟨_, ⟨@run_of_runFrom _ _ _ _ _ [.pipewrite 1 (fun _ => some 7) 1, .advance 1, .advance 1,
    .advance 1, .piperead 2 (fun _ => false) 1, .advance 2, .advance 2] rfl, rfl, rfl⟩,
    rfl, rfl, _, rfl, rfl, rfl⟩

end CustomXv6

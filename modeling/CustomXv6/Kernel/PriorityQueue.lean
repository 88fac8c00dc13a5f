/-
Module: CustomXv6.Kernel.PriorityQueue
Purpose: The quota queue (kernel/queue.h) and the ready heap (kernel/priority_queue.h).
Trusted boundary: human-reviewed spec
Main exports: Queue, queue_refines_fifo, pqPush, pqPop, ready_queue_exact
-/
import CustomXv6.Kernel.Proc
import CustomXv6.Lib.RingBuffer
import CustomXv6.Lib.Transition
import CustomXv6.Lib.ArrayHeap
import Mathlib.Data.Fintype.Card
import Mathlib.Data.Prod.Lex

namespace CustomXv6

open ArrayHeap Transition
open Function

/-- `struct Queue`, without its lock. -/
structure Queue where
  procs : Nat → ProcId
  front : Nat
  rear : Nat
  size : Nat

def initializeQueue : Queue := { procs := fun _ => 0, front := 0, rear := 0, size := 0 }

def isEmpty (q : Queue) : Bool := q.size = 0

def isFull (q : Queue) : Bool := q.size = nproc

/-- `enqueue`, returning 1 for success and 0 for failure. -/
def enqueue (q : Queue) (p : ProcId) : Int × Queue :=
  if isFull q then (0, q)
  else
    (1,
      { procs := Function.update q.procs q.rear p
        front := q.front
        rear := (q.rear + 1) % nproc
        size := q.size + 1 })

/-- `pop`, returning `NULL` as `none`. -/
def pop (q : Queue) : Option ProcId × Queue :=
  if isEmpty q then (none, q)
  else
    (some (q.procs q.front),
      { procs := q.procs
        front := (q.front + 1) % nproc
        rear := q.rear
        size := q.size - 1 })

namespace Queue

/-- The queued processes, first to be popped first. -/
def toList (q : Queue) : List ProcId := RingBuffer.view q.procs nproc q.front q.size

/-- What holds of the indices in every reachable queue. -/
structure Valid (q : Queue) : Prop where
  frontBound : q.front < nproc
  rearEq : q.rear = (q.front + q.size) % nproc
  sizeBound : q.size ≤ nproc

@[simp] theorem toList_length (q : Queue) : q.toList.length = q.size := by
  simp [toList]

theorem valid_initializeQueue : initializeQueue.Valid := ⟨by decide, by decide, by decide⟩

@[simp] theorem toList_initializeQueue : initializeQueue.toList = [] := rfl

end Queue

variable {q : Queue}

/-- With room left, `enqueue` appends and reports success. -/
theorem enqueue_spec (valid : q.Valid) (room : q.size < nproc) (p : ProcId) :
    (enqueue q p).1 = 1 ∧ (enqueue q p).2.Valid ∧
      (enqueue q p).2.toList = q.toList ++ [p] := by
  have notFull : isFull q = false := by
    simp only [isFull, decide_eq_false_iff_not]
    omega
  simp only [enqueue, notFull, Bool.false_eq_true, if_false]
  refine ⟨trivial, ⟨valid.frontBound, ?_, room⟩, ?_⟩
  · simp only [valid.rearEq, Nat.mod_add_mod, Nat.add_assoc]
  · simp only [Queue.toList, valid.rearEq]
    exact RingBuffer.view_write q.procs room p

/-- `pop` on an empty queue returns `NULL`. -/
theorem pop_empty (empty : q.size = 0) : pop q = (none, q) := by
  simp [pop, isEmpty, empty]

/-- `pop` on a nonempty queue removes the first element. -/
theorem pop_spec (valid : q.Valid) (ne : 0 < q.size) :
    ∃ p, (pop q).1 = some p ∧ (pop q).2.Valid ∧ q.toList = p :: (pop q).2.toList := by
  have notEmpty : isEmpty q = false := by
    simp only [isEmpty, decide_eq_false_iff_not]
    omega
  obtain ⟨rest, sizeEq⟩ : ∃ rest, q.size = rest + 1 := ⟨q.size - 1, by omega⟩
  have bound := valid.sizeBound
  simp only [pop, notEmpty, Bool.false_eq_true, if_false]
  refine ⟨q.procs q.front, rfl, ⟨Nat.mod_lt _ (by decide), ?_, ?_⟩, ?_⟩
  · simp only [valid.rearEq, sizeEq, Nat.add_sub_cancel, Nat.mod_add_mod]
    congr 1
    omega
  · show q.size - 1 ≤ nproc
    omega
  · simp only [Queue.toList, sizeEq, Nat.add_sub_cancel]
    rw [RingBuffer.view_advance, Nat.mod_eq_of_lt valid.frontBound]

/-- A `pop` that returns `NULL` leaves the queue as it is. -/
theorem pop_none {q' : Queue} (popped : pop q = (none, q')) : q' = q := by
  rw [pop] at popped
  split at popped
  · exact (Prod.mk.inj popped).2.symm
  · cases popped

/-- What a successful `pop` takes out. -/
theorem pop_some {q' : Queue} {p : ProcId} (valid : q.Valid) (popped : pop q = (some p, q')) :
    q.toList = p :: q'.toList ∧ q'.Valid := by
  by_cases empty : q.size = 0
  · rw [pop_empty empty] at popped
    cases popped
  obtain ⟨_, popEq, valid', contents⟩ := pop_spec valid (Nat.pos_of_ne_zero empty)
  rw [popped] at popEq valid' contents
  cases popEq
  exact ⟨contents, valid'⟩

/-- `enqueue` adds at most the given process. -/
theorem enqueue_subset (valid : q.Valid) (p : ProcId) :
    (enqueue q p).2.Valid ∧ ∀ p' ∈ (enqueue q p).2.toList, p' ∈ q.toList ∨ p' = p := by
  by_cases room : q.size < nproc
  · obtain ⟨_, valid', contents⟩ := enqueue_spec valid room p
    refine ⟨valid', fun p' mem => ?_⟩
    rw [contents] at mem
    simpa using mem
  · have full : isFull q = true := decide_eq_true (Nat.le_antisymm valid.sizeBound (by omega))
    rw [enqueue, if_pos full]
    exact ⟨valid, fun p' mem => .inl mem⟩

/-! ### The bounded list -/

inductive QueueCall where
  | enqueue (p : ProcId)
  | pop

inductive QueueAnswer where
  | stored (res : Int)
  | taken (p : Option ProcId)

def Queue.call (q : Queue) : QueueCall → QueueAnswer × Queue
  | .enqueue p => (.stored (enqueue q p).1, (enqueue q p).2)
  | .pop => (.taken (pop q).1, (pop q).2)

/-- The calls on a list of at most `nproc` processes. -/
def Fifo.call (l : List ProcId) : QueueCall → QueueAnswer × List ProcId
  | .enqueue p => if l.length < nproc then (.stored 1, l ++ [p]) else (.stored 0, l)
  | .pop =>
    match l with
    | [] => (.taken none, [])
    | p :: rest => (.taken (some p), rest)

/-- Queue and list answer a call alike and still agree after it. -/
theorem Queue.Valid.call (valid : q.Valid) (c : QueueCall) :
    (q.call c).1 = (Fifo.call q.toList c).1 ∧ (q.call c).2.Valid ∧
      (q.call c).2.toList = (Fifo.call q.toList c).2 := by
  cases c with
  | enqueue p =>
    simp only [Queue.call, Fifo.call, toList_length]
    by_cases room : q.size < nproc
    · obtain ⟨res, valid', contents⟩ := enqueue_spec valid room p
      rw [if_pos room, res]
      exact ⟨rfl, valid', contents⟩
    · have full : isFull q = true := decide_eq_true (Nat.le_antisymm valid.sizeBound (by omega))
      rw [if_neg room, enqueue, if_pos full]
      exact ⟨rfl, valid, rfl⟩
  | pop =>
    by_cases empty : q.size = 0
    · have nil : q.toList = [] := List.eq_nil_of_length_eq_zero (q.toList_length.trans empty)
      simp only [Queue.call, Fifo.call, pop_empty empty, nil]
      exact ⟨trivial, valid, trivial⟩
    · obtain ⟨_, res, valid', contents⟩ := pop_spec valid (Nat.pos_of_ne_zero empty)
      simp only [Queue.call, Fifo.call, res, contents]
      exact ⟨trivial, valid', trivial⟩

/-- The queue is a list of capacity `nproc`: in every run of calls from `initializeQueue` it
holds the processes of the list, the next call gets the same answer from both, and the indices
of the ring are consistent. -/
theorem queue_refines_fifo {q : Queue} {l : List ProcId} (run : Transition.Run
      (fun s c => some ((Queue.call s.1 c).2, (Fifo.call s.2 c).2)) (fun _ (_ : QueueCall) => True)
      (initializeQueue, []) (q, l)) :
    q.toList = l ∧ (∀ c, (q.call c).1 = (Fifo.call l c).1) ∧
      q.rear = (q.front + q.size) % nproc ∧ q.size ≤ nproc := by
  have agree : q.Valid ∧ q.toList = l := by
    apply run.invariant (P := fun s => s.1.Valid ∧ s.1.toList = s.2)
    · exact ⟨Queue.valid_initializeQueue, Queue.toList_initializeQueue⟩
    rintro ⟨q, l⟩ c s' ⟨valid, same⟩ _ ran
    obtain rfl : q.toList = l := same
    cases ran
    exact (valid.call c).2
  obtain ⟨valid, rfl⟩ := agree
  exact ⟨rfl, fun c => (valid.call c).1, valid.rearEq, valid.sizeBound⟩

/-- Of two processes the first is popped first. -/
theorem queue_refines_fifo_two :
    (((initializeQueue.call (.enqueue 3)).2.call (.enqueue 5)).2.call .pop).1 = .taken (some 3) :=
  (queue_refines_fifo (Transition.run_of_runFrom (show Transition.runFrom _ (initializeQueue, [])
    [.enqueue 3, .enqueue 5] = some (_, [3, 5]) from rfl))).2.1 .pop

/-!
The source compares `heap[i]->usage_time` in three places, each time with a nest of `if`s of
its own.  The three tests are kept apart below; the loops around them are those of the heap
library.  The heap stores process pointers and reads the table of usage records through them
at every comparison.
-/

/-- `struct PriorityQueue`, without its lock. -/
structure PriorityQueue where
  heap : Nat → ProcId
  size : Nat

def pqInit : PriorityQueue := { heap := fun _ => 0, size := 0 }

/-- The `break` conditions of the upward loop of `pq_push`. -/
def pqPushBreaks (parent child : CpuUsage) : Bool :=
  if parent.sumOfTicks ≤ child.sumOfTicks then
    if parent.sumOfTicks = child.sumOfTicks then
      decide (parent.deadline ≤ child.deadline)
    else true
  else false

/-- The `break` conditions of `pq_check_and_push`: unequal sums always end the loop. -/
def pqCheckAndPushBreaks (parent child : CpuUsage) : Bool :=
  if parent.sumOfTicks = child.sumOfTicks then
    decide (parent.deadline ≤ child.deadline)
  else true

/-- When the downward loop of `pq_pop` replaces `smallest` by a child. -/
def pqPopPrefers (child smallest : CpuUsage) : Bool :=
  if child.sumOfTicks ≤ smallest.sumOfTicks then
    if child.sumOfTicks = smallest.sumOfTicks then
      decide (child.deadline < smallest.deadline)
    else true
  else false

section Operations

variable (usage : ProcId → CpuUsage)

/-- `pq_push`, with `none` for the panic "Priority queue overflow". -/
def pqPush (pq : PriorityQueue) (p : ProcId) : Option PriorityQueue :=
  if pq.size ≥ nproc then none
  else
    some
      { heap := siftUp (fun parent child => pqPushBreaks (usage parent) (usage child))
          (update pq.heap pq.size p) pq.size
        size := pq.size + 1 }

/-- `pq_pop`, without the store into the process table, which the scheduler step makes. -/
def pqPop (pq : PriorityQueue) : Option (ProcId × PriorityQueue) :=
  if pq.size = 0 then none
  else
    some
      (pq.heap 0,
        { heap := siftDown (fun child smallest => pqPopPrefers (usage child) (usage smallest))
            (update pq.heap 0 (pq.heap (pq.size - 1))) (pq.size - 1) 0
          size := pq.size - 1 })

/-- The scan of `pq_check_and_push` for a process that is already queued. -/
def PriorityQueue.holds (pq : PriorityQueue) (p : ProcId) : Bool :=
  (List.range pq.size).any fun i => pq.heap i = p

/-- `pq_check_and_push`, with `none` for the panic "Priority queue overflow"
and the returned `int` as a Boolean. -/
def pqCheckAndPush (state : ProcState) (pq : PriorityQueue) (p : ProcId) :
    Option (Bool × PriorityQueue) :=
  if state ≠ .runnable then some (false, pq)
  else if pq.holds p then some (false, pq)
  else if pq.size ≥ nproc then none
  else
    some
      (true,
        { heap := siftUp
            (fun parent child => pqCheckAndPushBreaks (usage parent) (usage child))
            (update pq.heap pq.size p) pq.size
          size := pq.size + 1 })

/-- The processes whose `usage_time` a `pq_check_and_push` reads. -/
def pqCheckAndPushReads (state : ProcState) (pq : PriorityQueue) (p : ProcId) : List ProcId :=
  if state ≠ .runnable ∨ pq.holds p ∨ pq.size ≥ nproc then []
  else
    siftUpReads (fun parent child => pqCheckAndPushBreaks (usage parent) (usage child))
      (update pq.heap pq.size p) pq.size

/-- The processes whose `usage_time` a `pq_pop` reads. -/
def pqPopReads (pq : PriorityQueue) : List ProcId :=
  siftDownReads (fun child smallest => pqPopPrefers (usage child) (usage smallest))
    (update pq.heap 0 (pq.heap (pq.size - 1))) (pq.size - 1) 0

end Operations

variable {pq pq' : PriorityQueue} {p : ProcId} {usage : ProcId → CpuUsage} {state : ProcState}

/-! ### Contents -/

theorem PriorityQueue.holds_iff : pq.holds p = true ↔ p ∈ contents pq.heap pq.size := by
  simp [PriorityQueue.holds, mem_contents]

/-- The processes in the heap, with multiplicity. -/
def PriorityQueue.procs (pq : PriorityQueue) : Multiset ProcId := contents pq.heap pq.size

@[simp] theorem PriorityQueue.card_procs (pq : PriorityQueue) :
    Multiset.card pq.procs = pq.size := by
  simp [PriorityQueue.procs, contents]

private theorem contents_append (heap : Nat → ProcId) (size : Nat) (p : ProcId)
    (stops : ProcId → ProcId → Bool) :
    contents (siftUp stops (update heap size p) size) (size + 1) =
      p ::ₘ contents heap size := by
  rw [contents_siftUp _ _ (Nat.lt_succ_self size), contents_succ, update_self]
  congr 1
  apply contents_congr
  intro i _
  exact update_of_ne (by omega) _ _

/-- An accepted `pq_check_and_push` adds exactly its process. -/
theorem procs_pqCheckAndPush (pushed : pqCheckAndPush usage state pq p = some (true, pq')) :
    state = .runnable ∧ p ∉ pq.procs ∧ pq.size < nproc ∧ pq'.procs = p ::ₘ pq.procs := by
  unfold pqCheckAndPush at pushed
  split_ifs at pushed with notRunnable held full
  · simp at pushed
  · simp at pushed
  simp only [Option.some.injEq, Prod.mk.injEq, true_and] at pushed
  subst pushed
  refine ⟨not_not.mp notRunnable, ?_, by omega, contents_append _ _ _ _⟩
  rw [PriorityQueue.procs, ← PriorityQueue.holds_iff]
  exact held

/-- A refused `pq_check_and_push` changes nothing. -/
theorem pqCheckAndPush_refused (refused : pqCheckAndPush usage state pq p = some (false, pq')) :
    pq' = pq ∧ (state = .runnable → p ∈ pq.procs) := by
  unfold pqCheckAndPush at refused
  split_ifs at refused with notRunnable held full
  · simp only [Option.some.injEq, Prod.mk.injEq, true_and] at refused
    exact ⟨refused.symm, fun runnable => absurd runnable notRunnable⟩
  · simp only [Option.some.injEq, Prod.mk.injEq, true_and] at refused
    exact ⟨refused.symm, fun _ => PriorityQueue.holds_iff.mp held⟩
  · simp at refused

/-- The overflow panic means that the heap is full and the process is not in
it. -/
theorem pqCheckAndPush_overflow (panicked : pqCheckAndPush usage state pq p = none) :
    nproc ≤ pq.size ∧ p ∉ pq.procs := by
  unfold pqCheckAndPush at panicked
  split_ifs at panicked with notRunnable held full
  refine ⟨full, ?_⟩
  rw [PriorityQueue.procs, ← PriorityQueue.holds_iff]
  exact held

/-- A nonempty heap hands out its root. -/
theorem pqPop_root (usage : ProcId → CpuUsage) (ne : 0 < pq.size) :
    ∃ pq', pqPop usage pq = some (pq.heap 0, pq') := by
  rw [pqPop, if_neg (by omega)]
  exact ⟨_, rfl⟩

/-- `pq_pop` removes exactly one occurrence of the process it returns. -/
theorem procs_pqPop (popped : pqPop usage pq = some (p, pq')) : pq.procs = p ::ₘ pq'.procs := by
  unfold pqPop at popped
  split_ifs at popped with empty
  obtain ⟨rfl, rfl⟩ := popped
  obtain ⟨last, sizeEq⟩ : ∃ last, pq.size = last + 1 := ⟨pq.size - 1, by omega⟩
  simp only [PriorityQueue.procs, sizeEq, Nat.add_sub_cancel]
  by_cases single : last = 0
  · subst single
    simp [contents]
  -- moving the last entry to the root is an exchange followed by a removal
  have exchanged : contents (swap pq.heap 0 last) (last + 1) = contents pq.heap (last + 1) :=
    contents_swap _ (by omega) (by omega)
  rw [contents_siftDown _ _ (by omega), ← exchanged, contents_succ, swap_right]
  congr 1
  apply contents_congr
  intro i lt
  by_cases root : i = 0
  · subst root
    simp
  · rw [swap_of_ne _ root (by omega), update_of_ne root]

variable {x : ProcId}

theorem mem_pqCheckAndPushReads (read : x ∈ pqCheckAndPushReads usage state pq p) :
    state = .runnable ∧ (x = p ∨ x ∈ pq.procs) := by
  unfold pqCheckAndPushReads at read
  split_ifs at read with refused
  · simp at read
  simp only [not_or, not_not] at refused
  have lt := mem_contents_of_siftUpReads _ _ (Nat.lt_succ_self pq.size) x read
  rw [contents_succ, update_self, Multiset.mem_cons] at lt
  refine ⟨refused.1, lt.imp id fun mem => ?_⟩
  rwa [contents_congr fun i below => update_of_ne (Nat.ne_of_lt below) _ _] at mem

theorem mem_pqPopReads (read : x ∈ pqPopReads usage pq) : x ∈ pq.procs := by
  unfold pqPopReads at read
  by_cases small : pq.size - 1 = 0
  · rw [small, siftDownReads] at read
    simp at read
  obtain ⟨i, _, rfl⟩ := mem_contents.mp (mem_contents_of_siftDownReads _ _ (by omega) x read)
  by_cases root : i = 0
  · subst root
    exact mem_contents.mpr ⟨_, by omega, rfl⟩
  · rw [update_of_ne root]
    exact mem_contents.mpr ⟨i, by omega, rfl⟩

/-! ### Order -/

/-- The order the ready heap is for: least `sum_of_ticks` first, then least
`deadline`. -/
def key (usage : CpuUsage) : Nat ×ₗ Nat := toLex (usage.sumOfTicks.toNat, usage.deadline.toNat)

theorem key_le_iff {left right : CpuUsage} :
    key left ≤ key right ↔
      left.sumOfTicks < right.sumOfTicks ∨
        (left.sumOfTicks = right.sumOfTicks ∧ left.deadline ≤ right.deadline) := by
  rw [key, key, Prod.Lex.toLex_le_toLex, UInt32.lt_iff_toNat_lt, UInt32.le_iff_toNat_le,
    ← UInt32.toNat_inj]

theorem key_lt_iff {left right : CpuUsage} :
    key left < key right ↔
      left.sumOfTicks < right.sumOfTicks ∨
        (left.sumOfTicks = right.sumOfTicks ∧ left.deadline < right.deadline) := by
  rw [key, key, Prod.Lex.toLex_lt_toLex, UInt32.lt_iff_toNat_lt, UInt32.lt_iff_toNat_lt,
    ← UInt32.toNat_inj]

theorem pqPushBreaks_iff (parent child : CpuUsage) :
    pqPushBreaks parent child = true ↔ key parent ≤ key child := by
  rw [key_le_iff, pqPushBreaks]
  grind

theorem pqPopPrefers_iff (child smallest : CpuUsage) :
    pqPopPrefers child smallest = true ↔ key child < key smallest := by
  rw [key_lt_iff, pqPopPrefers]
  grind

/-- The test of `pq_check_and_push` is right unless the parent has strictly more ticks. -/
theorem pqCheckAndPushBreaks_eq {parent child : CpuUsage}
    (inOrder : parent.sumOfTicks ≤ child.sumOfTicks) :
    pqCheckAndPushBreaks parent child = pqPushBreaks parent child := by
  rw [pqCheckAndPushBreaks, pqPushBreaks, if_pos inOrder]

section Runs

variable (usage : ProcId → CpuUsage)

def PriorityQueue.Ordered (pq : PriorityQueue) : Prop :=
  ArrayHeap.Ordered (fun p => key (usage p)) pq.heap pq.size

/-- The calls the scheduler makes on the queue, for processes that are
`RUNNABLE`. -/
inductive PqOp where
  | push (p : ProcId)
  | pop
deriving DecidableEq, Repr

def pqStep (pq : PriorityQueue) : PqOp → Option PriorityQueue
  | .push p => (pqCheckAndPush usage .runnable pq p).map Prod.snd
  | .pop =>
    match pqPop usage pq with
    | none => some pq
    | some (_, pq') => some pq'

/-- A new process is not put directly below a process with more ticks.  This
is the case that the upward loop of `pq_check_and_push` leaves out. -/
def PushInOrder (pq : PriorityQueue) : PqOp → Prop
  | .push p =>
    p ∉ pq.procs → 0 < pq.size →
      (usage (pq.heap (parent pq.size))).sumOfTicks ≤ (usage p).sumOfTicks
  | .pop => True

/-- Whatever `pq_pop` returns now is lexicographically minimal in the heap. -/
def PopsMinimal (pq : PriorityQueue) : Prop :=
  ∀ p pq', pqPop usage pq = some (p, pq') → ∀ p' ∈ pq.procs, key (usage p) ≤ key (usage p')

variable {usage}

theorem PriorityQueue.Ordered.popsMinimal (ordered : pq.Ordered usage) : PopsMinimal usage pq := by
  intro p _ popped _ mem
  obtain ⟨i, lt, rfl⟩ := mem_contents.mp mem
  unfold pqPop at popped
  split_ifs at popped with empty
  simp only [Option.some.injEq, Prod.mk.injEq] at popped
  rw [← popped.1]
  exact ArrayHeap.Ordered.root_le _ ordered i lt

theorem pqPop_ordered (ordered : pq.Ordered usage) (popped : pqPop usage pq = some (p, pq')) :
    pq'.Ordered usage := by
  unfold pqPop at popped
  split_ifs at popped with empty
  simp only [Option.some.injEq, Prod.mk.injEq] at popped
  rw [← popped.2]
  exact siftDown_ordered (fun p => key (usage p)) (fun _ _ => pqPopPrefers_iff _ _)
    (SiftDownReady.of_root ordered (Nat.sub_le _ _) _)

/-- `pq_push` with room for one more process adds exactly that process and restores
the heap order. -/
theorem pqPush_spec (ordered : pq.Ordered usage) (room : pq.size < nproc) (p : ProcId) :
    ∃ pq', pqPush usage pq p = some pq' ∧ pq'.procs = p ::ₘ pq.procs ∧ pq'.Ordered usage := by
  rw [pqPush, if_neg (by omega)]
  refine ⟨_, rfl, contents_append _ _ _ _, ?_⟩
  exact siftUp_ordered (fun p => key (usage p)) (fun _ _ => pqPushBreaks_iff _ _)
    (Nat.lt_succ_self _) (SiftUpReady.of_append ordered p)

/-- On an ordered heap an accepted push that is in order restores the order: every entry on the
way to the root has at most as many ticks as the new one. -/
theorem pqCheckAndPush_ordered (ordered : pq.Ordered usage)
    (inOrder : PushInOrder usage pq (.push p))
    (pushed : pqCheckAndPush usage .runnable pq p = some (true, pq')) : pq'.Ordered usage := by
  have fresh := (procs_pqCheckAndPush pushed).2.1
  have ready := SiftUpReady.of_append ordered p
  unfold pqCheckAndPush at pushed
  split_ifs at pushed with notRunnable held full
  · simp at pushed
  · simp at pushed
  simp only [Option.some.injEq, Prod.mk.injEq, true_and] at pushed
  subst pushed
  have sameLoop : siftUp (fun parent child => pqCheckAndPushBreaks (usage parent) (usage child))
      (update pq.heap pq.size p) pq.size =
        siftUp (fun parent child => pqPushBreaks (usage parent) (usage child))
          (update pq.heap pq.size p) pq.size := by
    apply siftUp_congr
    intro a above
    apply pqCheckAndPushBreaks_eq
    have below := above.lt
    have parentBelow : parent pq.size < pq.size := parent_lt (by omega)
    have first := inOrder fresh (by omega)
    have climb := Ancestor.key_le_parent (fun p => key (usage p))
      (Nat.lt_succ_self _) ready.except above
    rcases key_le_iff.mp climb with _ | ⟨_, _⟩
    · grind
    · grind
  simp only [PriorityQueue.Ordered, sameLoop]
  exact siftUp_ordered (fun p => key (usage p)) (fun _ _ => pqPushBreaks_iff _ _)
    (Nat.lt_succ_self _) ready

/-- One call that meets the condition keeps the heap order. -/
theorem pqStep_ordered {op : PqOp} (ordered : pq.Ordered usage)
    (inOrder : PushInOrder usage pq op) (ran : pqStep usage pq op = some pq') :
    pq'.Ordered usage := by
  cases op with
  | push =>
    obtain ⟨⟨accepted, _⟩, called, rfl⟩ := Option.map_eq_some_iff.mp ran
    cases accepted with
    | true => exact pqCheckAndPush_ordered ordered inOrder called
    | false =>
      obtain ⟨kept, _⟩ := pqCheckAndPush_refused called
      simpa [kept] using ordered
  | pop =>
    simp only [pqStep] at ran
    split at ran
    · cases ran
      exact ordered
    rename_i p queue popped
    cases ran
    exact pqPop_ordered ordered popped

theorem pqInit_ordered : pqInit.Ordered usage := by
  intro i _ lt
  simp [pqInit] at lt

theorem run_ordered (run : Run (pqStep usage) (PushInOrder usage) pqInit pq) : pq.Ordered usage :=
  run.invariant pqInit_ordered fun ordered inOrder ran =>
    pqStep_ordered ordered inOrder ran

/-- The queue after two pushes of processes whose ticks differ: the second stays below. -/
private theorem push_two {p' : ProcId} (ne : p ≠ p')
    (unequal : (usage p).sumOfTicks ≠ (usage p').sumOfTicks) :
    ∃ pq, Run (pqStep usage) (fun _ _ => True) pqInit pq ∧ pq.size = 2 ∧
      pq.heap 0 = p ∧ pq.heap 1 = p' := by
  obtain ⟨first, firstEq, firstSize, firstRoot⟩ : ∃ pq,
      pqStep usage pqInit (.push p) = some pq ∧ pq.size = 1 ∧ pq.heap 0 = p := by
    simp [pqStep, pqCheckAndPush, pqInit, PriorityQueue.holds, siftUp]
  have absent : first.holds p' = false := by
    simp [PriorityQueue.holds, firstSize, firstRoot, ne]
  obtain ⟨second, secondEq, secondSize, secondRoot, secondLeaf⟩ : ∃ pq,
      pqStep usage first (.push p') = some pq ∧ pq.size = 2 ∧ pq.heap 0 = p ∧
        pq.heap 1 = p' := by
    simp only [pqStep, pqCheckAndPush, absent, firstSize]
    refine ⟨_, rfl, rfl, ?_, ?_⟩ <;>
      · rw [siftUp]
        simp [parent, pqCheckAndPushBreaks, firstRoot, unequal]
  exact ⟨second, .tail (.single trivial firstEq) trivial secondEq, secondSize, secondRoot,
    secondLeaf⟩

end Runs

/-- Priority order of the ready queue.  As long as no accepted push puts a process directly
below one with strictly more ticks, every `pq_pop` returns a lexicographically minimal process;
a fixed assignment of keys is safe for all sequences of calls exactly when all processes have
the same number of ticks. -/
theorem pqPop_minimal_of_pushes_in_order (usage : ProcId → CpuUsage) :
    (∀ pq, Run (pqStep usage) (PushInOrder usage) pqInit pq → PopsMinimal usage pq) ∧
      ((∀ pq, Run (pqStep usage) (fun _ _ => True) pqInit pq → PopsMinimal usage pq) ↔
        ∀ p p', (usage p).sumOfTicks = (usage p').sumOfTicks) := by
  refine ⟨fun pq run => (run_ordered run).popsMinimal, ?_, ?_⟩
  · intro always
    -- of two processes with different sums, push the one with more ticks first
    have noneFewer : ∀ p p', ¬ (usage p').sumOfTicks < (usage p).sumOfTicks := by
      intro p p' fewer
      have ne : p ≠ p' := by
        rintro rfl
        exact UInt32.lt_irrefl _ fewer
      obtain ⟨pq, run, _, root, below⟩ := push_two ne (UInt32.ne_of_lt fewer).symm
      have mem : p' ∈ pq.procs := mem_contents.mpr ⟨1, by omega, below⟩
      obtain ⟨pq', popped⟩ := pqPop_root usage (show 0 < pq.size by omega)
      rw [root] at popped
      rcases key_le_iff.mp (always pq run p pq' popped p' mem) with _ | ⟨_, _⟩
      · grind
      · grind
    intro p p'
    have left := noneFewer p p'
    have right := noneFewer p' p
    grind
  intro equal _ run
  refine (run_ordered (run.mono ?_)).popsMinimal
  intro queue op _
  cases op with
  | push p =>
    intro _ _
    rw [equal (queue.heap (parent queue.size)) p]
    exact UInt32.le_refl _
  | pop => trivial

/-- The heap operations on any ordered heap, whatever the keys: `pq_pop` removes a minimal
process, or returns `NULL` from an empty heap; `pq_push` with room left adds its process; both
leave an ordered heap, and both loops end. -/
theorem pqPop_pqPush_correct {usage : ProcId → CpuUsage} {pq : PriorityQueue}
    (ordered : pq.Ordered usage) :
    (pq.size = 0 → pqPop usage pq = none) ∧
    (0 < pq.size → ∃ p pq', pqPop usage pq = some (p, pq') ∧
      (∀ p' ∈ pq.procs, key (usage p) ≤ key (usage p')) ∧
      pq.procs = p ::ₘ pq'.procs ∧ pq'.Ordered usage) ∧
    (pq.size < nproc → ∀ p, ∃ pq', pqPush usage pq p = some pq' ∧
      pq'.procs = p ::ₘ pq.procs ∧ pq'.Ordered usage) := by
  refine ⟨fun empty => if_pos empty, fun ne => ?_, fun room => pqPush_spec ordered room⟩
  obtain ⟨pq', popped⟩ := pqPop_root usage ne
  exact ⟨_, pq', popped, ordered.popsMinimal _ _ popped, procs_pqPop popped,
    pqPop_ordered ordered popped⟩

/-- Process 0 has used five ticks, every other process three. -/
def skewedUsage (p : ProcId) : CpuUsage :=
  { CpuUsage.fresh with sumOfTicks := if p = 0 then 5 else 3 }

/-- After `pq_check_and_push` of 0 and of 1, `pq_pop` returns 0 although 1 has fewer ticks. -/
theorem pqPop_not_minimal :
    ¬ ∀ pq, Run (pqStep skewedUsage) (fun _ _ => True) pqInit pq → PopsMinimal skewedUsage pq := by
  intro always
  obtain ⟨pq, run, _, root, below⟩ :=
    push_two (show (0 : ProcId) ≠ 1 by decide)
      (show (skewedUsage 0).sumOfTicks ≠ (skewedUsage 1).sumOfTicks by decide)
  have mem : (1 : ProcId) ∈ pq.procs := mem_contents.mpr ⟨1, by omega, below⟩
  obtain ⟨pq', popped⟩ := pqPop_root skewedUsage (show 0 < pq.size by omega)
  rw [root] at popped
  have minimal := always pq run 0 pq' popped 1 mem
  revert minimal
  decide

/-- Processes 1 and 2 with three ticks, and 0 with five below them. -/
def threeHeap : PriorityQueue := ⟨fun i => if i = 0 then 1 else if i = 1 then 2 else 0, 3⟩

theorem pqPop_pqPush_correct_three :
    (∃ p pq', pqPop skewedUsage threeHeap = some (p, pq') ∧
      key (skewedUsage p) ≤ key (skewedUsage 2) ∧ threeHeap.procs = p ::ₘ pq'.procs ∧
      pq'.Ordered skewedUsage) ∧
    ∃ pq', pqPush skewedUsage threeHeap 3 = some pq' ∧ pq'.procs = 3 ::ₘ threeHeap.procs ∧
      pq'.Ordered skewedUsage := by
  have ordered : threeHeap.Ordered skewedUsage := by
    intro i pos lt
    have below : i < 3 := lt
    obtain rfl | rfl : i = 1 ∨ i = 2 := by omega
    · decide
    · decide
  obtain ⟨_, pops, pushes⟩ := pqPop_pqPush_correct ordered
  obtain ⟨p, pq', popped, minimal, rest⟩ := pops (by decide)
  exact ⟨⟨p, pq', popped, minimal 2 (by decide), rest⟩, pushes (by decide) 3⟩

/-! ### No loss and no duplicates -/

/-- A call of a scheduler, with the state of the process and the usage records that
it finds: both change in any way between two calls. -/
inductive ReadyCall where
  | checkAndPush (usage : ProcId → CpuUsage) (state : ProcState) (p : ProcId)
  | pop (usage : ProcId → CpuUsage)

/-- The heap, with the processes that were accepted and not popped since. -/
structure ReadyCalls where
  pq : PriorityQueue
  accepted : Finset ProcId

/-- One call, with `none` for the panic.  A process is accepted if it is `RUNNABLE` and
not among those accepted before. -/
def ReadyCalls.step (s : ReadyCalls) : ReadyCall → Option ReadyCalls
  | .checkAndPush usage state p =>
    (pqCheckAndPush usage state s.pq p).map fun res =>
      ⟨res.2, if state = .runnable then insert p s.accepted else s.accepted⟩
  | .pop usage =>
    match pqPop usage s.pq with
    | none => some s
    | some (p, pq') => some ⟨pq', s.accepted.erase p⟩

/-- The heap holds each accepted process once and no other. -/
def ReadyCalls.Exact (s : ReadyCalls) : Prop := s.pq.procs = s.accepted.val

/-- One call keeps the heap exact. -/
theorem ReadyCalls.Exact.step {s s' : ReadyCalls} {call : ReadyCall} (same : s.Exact)
    (ran : s.step call = some s') : s'.Exact := by
  cases call with
  | checkAndPush _ state =>
    obtain ⟨⟨taken, _⟩, called, rfl⟩ := Option.map_eq_some_iff.mp ran
    cases taken with
    | true =>
      obtain ⟨runnable, absent, _, procs⟩ := procs_pqCheckAndPush called
      rw [same] at absent procs
      rw [ReadyCalls.Exact, if_pos runnable, Finset.insert_val_of_notMem absent]
      exact procs
    | false =>
      obtain ⟨rfl, known⟩ := pqCheckAndPush_refused called
      rw [same] at known
      by_cases runnable : state = .runnable
      · rw [ReadyCalls.Exact, if_pos runnable, Finset.insert_eq_of_mem (known runnable)]
        exact same
      · rw [ReadyCalls.Exact, if_neg runnable]
        exact same
  | pop _ =>
    simp only [ReadyCalls.step] at ran
    split at ran
    · cases ran
      exact same
    rename_i p pq' popped
    cases ran
    rw [ReadyCalls.Exact, Finset.erase_val, ← same, procs_pqPop popped, Multiset.erase_cons_head]

/-- The heap of an exact state never overflows: the absent process would be one
more than there are. -/
theorem ReadyCalls.Exact.enabled {s : ReadyCalls} (same : s.Exact) (call : ReadyCall) :
    (s.step call).isSome := by
  cases call with
  | checkAndPush =>
    rw [ReadyCalls.step, Option.isSome_map]
    by_contra panicked
    obtain ⟨full, absent⟩ := pqCheckAndPush_overflow (Option.not_isSome_iff_eq_none.mp panicked)
    rw [← s.pq.card_procs, same] at full
    rw [same] at absent
    have fewer := Finset.card_lt_univ_of_notMem (Finset.mem_def.not.mpr absent)
    exact absurd full (Nat.not_le.mpr fewer)
  | pop =>
    simp only [ReadyCalls.step]
    split <;> rfl

/-- In every run of `pq_check_and_push` and `pq_pop` from the empty queue, with any
process states and keys at each call, the heap has no process twice, it holds the
accepted processes that were not popped, and the next call does not panic. -/
theorem ready_queue_exact {s : ReadyCalls}
    (run : Run ReadyCalls.step (fun _ _ => True) ⟨pqInit, ∅⟩ s) :
    s.pq.procs.Nodup ∧ (∀ p, p ∈ s.pq.procs ↔ p ∈ s.accepted) ∧
      ∀ call, (s.step call).isSome := by
  have same : s.Exact := run.invariant rfl fun pre _ ran => pre.step ran
  refine ⟨?_, fun p => ?_, same.enabled⟩
  · rw [same]
    exact s.accepted.nodup
  · rw [same, Finset.mem_def]

/-- Of three processes that are accepted one is popped. -/
theorem ready_queue_exact_three :
    ∃ s, Run ReadyCalls.step (fun _ _ => True) ⟨pqInit, ∅⟩ s ∧ s.pq.procs.Nodup ∧
      2 ∈ s.pq.procs ∧ 0 ∉ s.pq.procs := by
  obtain ⟨s, run, accepted⟩ := exists_run_of_runFrom ReadyCalls.step ⟨pqInit, ∅⟩
    [.checkAndPush skewedUsage .runnable 0, .checkAndPush skewedUsage .runnable 1,
      .checkAndPush skewedUsage .runnable 2, .pop skewedUsage]
    (P := fun s => s.accepted = {1, 2}) (by decide +kernel)
  obtain ⟨nodup, same, -⟩ := ready_queue_exact run
  exact ⟨s, run, nodup, (same 2).mpr (by simp [accepted]), by simp [same, accepted]⟩

end CustomXv6

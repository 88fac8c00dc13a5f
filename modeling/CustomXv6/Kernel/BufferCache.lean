/-
Module: CustomXv6.Kernel.BufferCache
Purpose: The buffer cache (kernel/bio.c) under any interleaving of processes.
Trusted boundary: human-reviewed spec
Main exports: BufSys.step, bufferCache_invariant
-/
import CustomXv6.Kernel.FileSystem
import CustomXv6.Lib.Counting
import CustomXv6.Lib.LinkedRing

namespace CustomXv6

open Function
open Transition LinkedRing Counting

/-! ### The cache -/

/-- `struct buf`, without its links.  `lock` is the process that holds the sleep
lock. -/
structure Buf (P β : Type) where
  valid : Bool := false
  dev : UInt32 := 0
  blockno : UInt32 := 0
  lock : Option P := none
  refcnt : Nat := 0
  data : β

/-- `bcache`: the buffers are numbered from 0, and `nbuf` stands for `bcache.head`
in the links. -/
structure BCache (P β : Type) where
  buf : Nat → Buf P β
  next : Nat → Nat := fun _ => nbuf
  prev : Nat → Nat := fun _ => nbuf

variable {P β : Type}

namespace BCache

/-- `bcache.head`. -/
abbrev head : Nat := nbuf

def setBuf (c : BCache P β) (b : Nat) (buf : Buf P β) : BCache P β :=
  { c with buf := update c.buf b buf }

/-- The four assignments that put `b` behind the head, in `binit` and `brelse`. -/
def insert (c : BCache P β) (b : Nat) : BCache P β :=
  let c := { c with next := update c.next b (c.next head) }
  let c := { c with prev := update c.prev b head }
  let c := { c with prev := update c.prev (c.next head) b }
  { c with next := update c.next head b }

/-- The two assignments of `brelse` that take `b` out of the ring. -/
def unlink (c : BCache P β) (b : Nat) : BCache P β :=
  let c := { c with prev := update c.prev (c.next b) (c.prev b) }
  { c with next := update c.next (c.prev b) (c.next b) }

/-- `binit`, for buffers with any contents. -/
def binit (page : Nat → β) : BCache P β :=
  (List.range nbuf).foldl insert { buf := fun b => { data := page b } }

/-- `bget` up to the release of `bcache.lock`: the buffer it goes on to lock, or a panic. -/
def bget (c : BCache P β) (dev blockno : UInt32) : Option (Nat × BCache P β) :=
  match scan c.next head (fun b => (c.buf b).dev == dev && (c.buf b).blockno == blockno)
      (nbuf + 1) (c.next head) with
  | some b => some (b, c.setBuf b { c.buf b with refcnt := (c.buf b).refcnt + 1 })
  | none =>
    match scan c.prev head (fun b => (c.buf b).refcnt == 0) (nbuf + 1) (c.prev head) with
    | some b =>
      some (b, c.setBuf b
        { c.buf b with dev := dev, blockno := blockno, valid := false, refcnt := 1 })
    | none => none

/-- `brelse` from the point at which it takes `bcache.lock`. -/
def put (c : BCache P β) (b : Nat) : BCache P β :=
  let c := c.setBuf b { c.buf b with refcnt := (c.buf b).refcnt - 1 }
  if (c.buf b).refcnt = 0 then (c.unlink b).insert b else c

end BCache

/-! ### Processes -/

/-- Where a process is: outside, in `bget` waiting for the lock of a buffer, in
`bread` with the lock, or in `brelse` after it has given the lock up. -/
inductive BufPc where
  | ready
  | waiting (b : Nat)
  | filling (b : Nat)
  | releasing (b : Nat)
deriving DecidableEq, Repr

/-- The cache with the disk and the processes, and a record of what has happened: the pins
that have not been taken back, the buffers that have been assigned a block, and when each of
them was last released, counted in releases. -/
structure BufSys (P β : Type) where
  cache : BCache P β
  disk : UInt32 → UInt32 → β
  pc : P → BufPc := fun _ => .ready
  pins : Nat → Nat := fun _ => 0
  used : Nat → Bool := fun _ => false
  idleSince : Nat → Nat := fun _ => 0
  clock : Nat := 0

inductive BufAction (P β : Type) where
  | bread (p : P) (dev blockno : UInt32)
  | advance (p : P)
  | modify (p : P) (b : Nat) (data : β)
  | bwrite (p : P) (b : Nat)
  | bpin (p : P) (b : Nat)
  | bunpin (p : P) (b : Nat)
  | brelse (p : P) (b : Nat)

namespace BufSys

/-- After `binit`. -/
def init (page : Nat → β) (disk : UInt32 → UInt32 → β) : BufSys P β where
  cache := .binit page
  disk := disk

abbrev buf (s : BufSys P β) (b : Nat) : Buf P β := s.cache.buf b

def setBuf (s : BufSys P β) (b : Nat) (buf : Buf P β) : BufSys P β :=
  { s with cache := s.cache.setBuf b buf }

variable [DecidableEq P]

def goto (s : BufSys P β) (p : P) (pc : BufPc) : BufSys P β := { s with pc := update s.pc p pc }

/-- The first part of `bread`, up to the wait for the lock of the buffer. -/
def bread (s : BufSys P β) (p : P) (dev blockno : UInt32) : Option (BufSys P β) :=
  match s.cache.bget dev blockno with
  | some (b, cache) =>
    some ({ s with cache := cache, used := update s.used b true }.goto p (.waiting b))
  | none => none

/-- `acquiresleep` returns. -/
def acquire (s : BufSys P β) (p : P) (b : Nat) : BufSys P β :=
  (s.setBuf b { s.buf b with lock := some p }).goto p (.filling b)

/-- The rest of `bread`. -/
def fill (s : BufSys P β) (p : P) (b : Nat) : BufSys P β :=
  if (s.buf b).valid then s.goto p .ready
  else
    (s.setBuf b { s.buf b with
      data := s.disk (s.buf b).dev (s.buf b).blockno, valid := true }).goto p .ready

/-- `brelse` after `releasesleep`. -/
def put (s : BufSys P β) (p : P) (b : Nat) : BufSys P β :=
  let released := { s with cache := s.cache.put b }.goto p .ready
  if (s.buf b).refcnt = 1 then
    { released with idleSince := update s.idleSince b s.clock, clock := s.clock + 1 }
  else released

/-- One step.  A process uses a buffer only while it holds its lock, asks only for
blocks of a device, and takes back only pins there are. -/
def step (s : BufSys P β) : BufAction P β → Option (BufSys P β)
  | .bread p dev blockno => if s.pc p = .ready ∧ dev ≠ 0 then s.bread p dev blockno else none
  | .advance p =>
    match s.pc p with
    | .ready => none
    | .waiting b => if (s.buf b).lock = none then some (s.acquire p b) else none
    | .filling b => some (s.fill p b)
    | .releasing b => some (s.put p b)
  | .modify p b data =>
    if s.pc p = .ready ∧ (s.buf b).lock = some p then
      some (s.setBuf b { s.buf b with data := data })
    else none
  | .bwrite p b =>
    if s.pc p = .ready ∧ (s.buf b).lock = some p then
      some { s with
        disk := update s.disk (s.buf b).dev
          (update (s.disk (s.buf b).dev) (s.buf b).blockno (s.buf b).data) }
    else none
  | .bpin p b =>
    if s.pc p = .ready ∧ (s.buf b).lock = some p then
      some { s.setBuf b { s.buf b with refcnt := (s.buf b).refcnt + 1 } with
        pins := update s.pins b (s.pins b + 1) }
    else none
  | .bunpin p b =>
    if s.pc p = .ready ∧ (s.buf b).lock = some p ∧ 0 < s.pins b then
      some { s.setBuf b { s.buf b with refcnt := (s.buf b).refcnt - 1 } with
        pins := update s.pins b (s.pins b - 1) }
    else none
  | .brelse p b =>
    if s.pc p = .ready ∧ (s.buf b).lock = some p then
      some ((s.setBuf b { s.buf b with lock := none }).goto p (.releasing b))
    else none

/-- The processes that hold buffer `b`: the one with the lock, and those that are
on their way out of `brelse`. -/
def holders [Fintype P] (s : BufSys P β) (b : Nat) : Nat :=
  (if (s.buf b).lock.isSome then 1 else 0) + occurrences s.pc (.releasing b)

def waiters [Fintype P] (s : BufSys P β) (b : Nat) : Nat := occurrences s.pc (.waiting b)

end BufSys

/-! ### The ring -/

namespace BCache

variable {c : BCache P β} {order : List Nat} {b : Nat}

/-- The links of the cache form one ring, in this order from the head on. -/
abbrev Linked (c : BCache P β) (order : List Nat) : Prop := Ring c.next c.prev head order

theorem Linked.unlink (linked : c.Linked order) (mem : b ∈ order) :
    (c.unlink b).Linked (order.erase b) := by
  have own : update c.prev (c.next b) (c.prev b) b = c.prev b := by
    by_cases same : b = c.next b
    · rw [← same, update_self]
    · exact update_of_ne same _ _
  have ring := Ring.unlink linked mem
  change Ring (update c.next (update c.prev (c.next b) (c.prev b) b) (c.next b)) _ head _
  rw [own]
  exact ring

theorem Linked.insert (linked : c.Linked order) (fresh : b ∉ head :: order) :
    (c.insert b).Linked (b :: order) := Ring.insert linked fresh

/-- What `binit` builds: all buffers, the last one first. -/
theorem binit_linked (page : Nat → β) :
    (binit page : BCache P β).Linked (List.range nbuf).reverse := by
  have build : ∀ k, k ≤ nbuf → ((List.range k).foldl BCache.insert
      { buf := fun b => { data := page b } } : BCache P β).Linked (List.range k).reverse := by
    intro k
    induction k with
    | zero =>
      intro _
      constructor
      · exact List.nodup_singleton _
      · exact ⟨rfl, rfl⟩
    | succ k ih =>
      intro _
      rw [List.range_succ, List.foldl_append, List.reverse_append]
      apply Linked.insert (ih (by omega))
      rw [List.mem_cons, List.mem_reverse, List.mem_range]
      change ¬ (k = nbuf ∨ k < k)
      omega
  exact build nbuf le_rfl

end BCache

/-! ### The invariant -/

namespace BufSys

variable [DecidableEq P] [Fintype P] {s s' : BufSys P β} {order : List Nat}
variable {b : Nat} {p : P} {act : BufAction P β}

/-- Of two buffers without users, the one nearer to the head has been released
later; those that were never assigned a block come last. -/
def Recent (s : BufSys P β) (b b' : Nat) : Prop :=
  (s.buf b).refcnt = 0 → (s.buf b').refcnt = 0 → s.used b' = true →
    s.used b = true ∧ s.idleSince b' < s.idleSince b

structure Inv (s : BufSys P β) (order : List Nat) : Prop where
  all : order.Perm (List.range nbuf)
  linked : s.cache.Linked order
  counted : ∀ b, (s.buf b).refcnt = s.holders b + s.waiters b + s.pins b
  inRange : ∀ b, s.used b = true → b < nbuf
  unused : ∀ b, s.used b = false → (s.buf b).dev = 0 ∧ (s.buf b).refcnt = 0
  device : ∀ b, s.used b = true → (s.buf b).dev ≠ 0
  unique : ∀ b b', s.used b = true → s.used b' = true → (s.buf b).dev = (s.buf b').dev →
    (s.buf b).blockno = (s.buf b').blockno → b = b'
  recent : order.Pairwise s.Recent
  past : ∀ b, s.used b = true → (s.buf b).refcnt = 0 → s.idleSince b < s.clock
  filling : ∀ p b, s.pc p = .filling b → (s.buf b).lock = some p

omit [DecidableEq P] in
theorem Inv.mem_iff (inv : s.Inv order) (b : Nat) : b ∈ order ↔ b < nbuf := by
  rw [inv.all.mem_iff, List.mem_range]

omit [DecidableEq P] in
theorem Inv.length (inv : s.Inv order) : order.length = nbuf := by
  rw [inv.all.length_eq, List.length_range]

omit [DecidableEq P] in
theorem init_inv (page : Nat → β) (disk : UInt32 → UInt32 → β) :
    (init page disk : BufSys P β).Inv (List.range nbuf).reverse := by
  constructor
  · exact List.reverse_perm _
  · exact BCache.binit_linked page
  · intro b
    have releasing : occurrences (init page disk : BufSys P β).pc (.releasing b) = 0 :=
      occurrences_eq_zero.mpr nofun
    have waiting : occurrences (init page disk : BufSys P β).pc (.waiting b) = 0 :=
      occurrences_eq_zero.mpr nofun
    rw [holders, waiters, releasing, waiting, buf]
    rfl
  · intro b absurd
    cases absurd
  · intro b _
    exact ⟨rfl, rfl⟩
  · intro b absurd
    cases absurd
  · intro b b' absurd
    cases absurd
  · apply List.pairwise_of_forall
    intro b _ _ _ absurd
    cases absurd
  · intro b absurd
    cases absurd
  · intro p b absurd
    cases absurd

/-! ### Steps that keep every buffer in its place -/

/-- No buffer changes its block or its place in the ring, and none loses its last
user. -/
structure Keeps (s s' : BufSys P β) : Prop where
  next : s'.cache.next = s.cache.next
  prev : s'.cache.prev = s.cache.prev
  used : s'.used = s.used
  idleSince : s'.idleSince = s.idleSince
  clock : s'.clock = s.clock
  dev : ∀ b, (s'.buf b).dev = (s.buf b).dev
  blockno : ∀ b, (s'.buf b).blockno = (s.buf b).blockno
  busy : ∀ b, (s'.buf b).refcnt = 0 → (s.buf b).refcnt = 0

omit [DecidableEq P] in
theorem Inv.keeps (inv : s.Inv order) (keeps : Keeps s s')
    (counted : ∀ b, (s'.buf b).refcnt = s'.holders b + s'.waiters b + s'.pins b)
    (taken : ∀ b, 0 < (s'.buf b).refcnt → s.used b = true)
    (filling : ∀ p b, s'.pc p = .filling b → (s'.buf b).lock = some p) : s'.Inv order where
  all := inv.all
  linked := by
    rw [BCache.Linked, keeps.next, keeps.prev]
    exact inv.linked
  counted := counted
  inRange b used := by
    rw [keeps.used] at used
    exact inv.inRange b used
  unused b unused := by
    rw [keeps.used] at unused
    refine ⟨(keeps.dev b).trans (inv.unused b unused).1, Nat.eq_zero_of_not_pos fun pos => ?_⟩
    rw [taken b pos] at unused
    cases unused
  device b used := by
    rw [keeps.used] at used
    rw [keeps.dev]
    exact inv.device b used
  unique b b' used used' dev blockno := by
    rw [keeps.used] at used used'
    rw [keeps.dev, keeps.dev] at dev
    rw [keeps.blockno, keeps.blockno] at blockno
    exact inv.unique b b' used used' dev blockno
  recent := by
    apply inv.recent.imp
    intro b b' recent idle idle' used
    rw [keeps.used] at used ⊢
    rw [keeps.idleSince]
    exact recent (keeps.busy b idle) (keeps.busy b' idle') used
  past b used idle := by
    rw [keeps.used] at used
    rw [keeps.idleSince, keeps.clock]
    exact inv.past b used (keeps.busy b idle)
  filling := filling

/-- A buffer is changed by a process that goes on at `pc`, with `pins` pins then. -/
def change (s : BufSys P β) (p : P) (pc : BufPc) (b : Nat) (x : Buf P β) (pins : Nat) :
    BufSys P β :=
  { (s.setBuf b x).goto p pc with pins := update s.pins b pins }

omit [Fintype P] in
theorem change_buf_self (s : BufSys P β) (p : P) (pc : BufPc) (b : Nat) (x : Buf P β)
    (pins : Nat) : (s.change p pc b x pins).buf b = x := update_self _ _ _

omit [Fintype P] in
theorem change_buf_of_ne (s : BufSys P β) (p : P) (pc : BufPc) {b' : Nat} (x : Buf P β) (pins : Nat)
    (other : b' ≠ b) : (s.change p pc b x pins).buf b' = s.buf b' :=
  update_of_ne other _ _

/-- What one process at `pc` contributes to the count of buffer `b`. -/
def uses (pc : BufPc) (b : Nat) : Nat :=
  (if pc = .waiting b then 1 else 0) + (if pc = .releasing b then 1 else 0)

/-- The references to a buffer, up to those of one process that moves. -/
theorem references_change (s : BufSys P β) (p : P) (pc : BufPc) (b b' : Nat) (x : Buf P β)
    (pins : Nat) :
    occurrences (s.change p pc b x pins).pc (.releasing b') + (s.change p pc b x pins).waiters b' +
        uses (s.pc p) b' =
      occurrences s.pc (.releasing b') + s.waiters b' + uses pc b' := by
  have releasing := occurrences_update s.pc p pc (.releasing b')
  have waiting := occurrences_update s.pc p pc (.waiting b')
  change occurrences (update s.pc p pc) (.releasing b') + occurrences (update s.pc p pc) (.waiting b') +
    _ = occurrences s.pc (.releasing b') + occurrences s.pc (.waiting b') + _
  rw [uses, uses]
  omega

/-- The counts of all buffers are right again if that of `b` goes with what the
process does. -/
theorem Inv.change_counted (inv : s.Inv order) (p : P) (pc : BufPc) (b : Nat) (x : Buf P β)
    (pins : Nat)
    (balance : x.refcnt + (if (s.buf b).lock.isSome then 1 else 0) + uses (s.pc p) b + s.pins b =
      (s.buf b).refcnt + (if x.lock.isSome then 1 else 0) + uses pc b + pins)
    (elsewhere : ∀ b', b' ≠ b → uses (s.pc p) b' = uses pc b') (b' : Nat) :
    ((s.change p pc b x pins).buf b').refcnt =
      (s.change p pc b x pins).holders b' + (s.change p pc b x pins).waiters b' +
        (s.change p pc b x pins).pins b' := by
  have references := s.references_change p pc b b' x pins
  have counted := inv.counted b'
  rw [holders] at counted ⊢
  by_cases same : b' = b
  · subst same
    have own : (s.change p pc b' x pins).pins b' = pins := update_self _ _ _
    rw [change_buf_self, own]
    omega
  · have moved := elsewhere b' same
    have own : (s.change p pc b x pins).pins b' = s.pins b' := update_of_ne same _ _
    rw [change_buf_of_ne s p pc x pins same, own]
    omega

/-- Whoever fills a buffer holds its lock, if the change leaves others their locks. -/
theorem Inv.change_filling (inv : s.Inv order) (p : P) (pc : BufPc) (b : Nat) (x : Buf P β)
    (pins : Nat) (others : ∀ q, q ≠ p → (s.buf b).lock = some q → x.lock = some q)
    (self : ∀ b', pc = .filling b' → b' = b ∧ x.lock = some p) (q : P) (b' : Nat)
    (place : (s.change p pc b x pins).pc q = .filling b') :
    ((s.change p pc b x pins).buf b').lock = some q := by
  by_cases mine : q = p
  · subst mine
    have own : (s.change q pc b x pins).pc q = pc := update_self _ _ _
    rw [own] at place
    obtain ⟨rfl, lock⟩ := self b' place
    rw [change_buf_self]
    exact lock
  have own : (s.change p pc b x pins).pc q = s.pc q := update_of_ne mine _ _
  rw [own] at place
  have lock := inv.filling q b' place
  by_cases same : b' = b
  · subst same
    rw [change_buf_self]
    exact others q mine lock
  · rw [change_buf_of_ne s p pc x pins same]
    exact lock

omit [DecidableEq P] in
/-- A buffer that somebody uses has been assigned. -/
theorem Inv.used_of_pos (inv : s.Inv order) (pos : 0 < (s.buf b).refcnt) : s.used b = true := by
  by_contra unused
  rw [Bool.not_eq_true] at unused
  have idle := (inv.unused b unused).2
  omega

/-- A change of a buffer that keeps its block and its users keeps the invariant, if the count
goes with the references. -/
theorem Inv.change (inv : s.Inv order) (p : P) (pc : BufPc) (b : Nat) (x : Buf P β) (pins : Nat)
    (dev : x.dev = (s.buf b).dev) (blockno : x.blockno = (s.buf b).blockno)
    (busy : x.refcnt = 0 → (s.buf b).refcnt = 0) (taken : 0 < x.refcnt → s.used b = true)
    (balance : x.refcnt + (if (s.buf b).lock.isSome then 1 else 0) + uses (s.pc p) b + s.pins b =
      (s.buf b).refcnt + (if x.lock.isSome then 1 else 0) + uses pc b + pins)
    (elsewhere : ∀ b', b' ≠ b → uses (s.pc p) b' = uses pc b')
    (others : ∀ q, q ≠ p → (s.buf b).lock = some q → x.lock = some q)
    (self : ∀ b', pc = .filling b' → b' = b ∧ x.lock = some p) :
    (s.change p pc b x pins).Inv order := by
  have here := s.change_buf_self p pc b x pins
  have there : ∀ {b'}, b' ≠ b → (s.change p pc b x pins).buf b' = s.buf b' :=
    fun other => s.change_buf_of_ne p pc x pins other
  apply inv.keeps _ (inv.change_counted p pc b x pins balance elsewhere) _
    (inv.change_filling p pc b x pins others self)
  · refine ⟨rfl, rfl, rfl, rfl, rfl, fun b' => ?_, fun b' => ?_, fun b' => ?_⟩
    · by_cases same : b' = b
      · subst same
        rw [here]
        exact dev
      · rw [there same]
    · by_cases same : b' = b
      · subst same
        rw [here]
        exact blockno
      · rw [there same]
    by_cases same : b' = b
    · subst same
      rw [here]
      exact busy
    · rw [there same]
      exact id
  intro b' pos
  by_cases same : b' = b
  · subst same
    rw [here] at pos
    exact taken pos
  · rw [there same] at pos
    exact inv.used_of_pos pos

@[simp] theorem uses_ready (b : Nat) : uses .ready b = 0 := rfl

@[simp] theorem uses_filling (b b' : Nat) : uses (.filling b) b' = 0 := rfl

@[simp] theorem uses_waiting (b b' : Nat) : uses (.waiting b) b' = if b = b' then 1 else 0 := by
  simp [uses]

@[simp] theorem uses_releasing (b b' : Nat) : uses (.releasing b) b' = if b = b' then 1 else 0 := by
  simp [uses]

/-! ### Looking a block up -/

/-- What `bget` finds: the buffer of the block, or the one without users for the longest time. -/
inductive Found (s : BufSys P β) (dev blockno : UInt32) (b : Nat) (cache : BCache P β) : Prop where
  | hit (range : b < nbuf) (block : (s.buf b).dev = dev ∧ (s.buf b).blockno = blockno)
      (found : cache = s.cache.setBuf b { s.buf b with refcnt := (s.buf b).refcnt + 1 })
  | miss (absent : ∀ b', b' < nbuf → ¬ ((s.buf b').dev = dev ∧ (s.buf b').blockno = blockno))
      (range : b < nbuf) (idle : (s.buf b).refcnt = 0)
      (oldest : ∀ b', b' < nbuf → b' ≠ b → (s.buf b').refcnt = 0 → s.used b = true →
        s.used b' = true ∧ s.idleSince b < s.idleSince b')
      (recycled : cache = s.cache.setBuf b
        { s.buf b with dev := dev, blockno := blockno, valid := false, refcnt := 1 })

omit [DecidableEq P] in
theorem Inv.bget (inv : s.Inv order) {dev blockno : UInt32} {cache : BCache P β}
    (got : s.cache.bget dev blockno = some (b, cache)) : Found s dev blockno b cache := by
  have enough : order.length < nbuf + 1 := by
    rw [inv.length]
    exact Nat.lt_succ_self _
  rw [BCache.bget, inv.linked.scan_forward _ enough, inv.linked.scan_backward _ enough] at got
  split at got
  · rename_i found
    cases got
    have block := List.find?_some found
    rw [Bool.and_eq_true, beq_iff_eq, beq_iff_eq] at block
    exact .hit ((inv.mem_iff b).mp (List.mem_of_find?_eq_some found)) block rfl
  rename_i absent
  split at got
  · rename_i found
    cases got
    obtain ⟨idle, after, pre, split, busy⟩ := List.find?_eq_some_iff_append.mp found
    have place : order = pre.reverse ++ b :: after.reverse := by
      rw [← List.reverse_reverse order, split]
      simp
    refine .miss (fun b' range block => ?_) ?_ ?_ (fun b' range other idle' used => ?_) rfl
    · have none := List.find?_eq_none.mp absent b' ((inv.mem_iff b').mpr range)
      rw [Bool.and_eq_true, beq_iff_eq, beq_iff_eq] at none
      exact none block
    · rw [← inv.mem_iff, place]
      exact List.mem_append_right _ (.head _)
    · exact beq_iff_eq.mp idle
    -- The buffers behind `b` in the ring have users, and those before it are more recent.
    have mem := (inv.mem_iff b').mpr range
    have recent := inv.recent
    rw [place, List.mem_append, List.mem_cons] at mem
    rw [place, List.pairwise_append] at recent
    rcases mem with earlier | same | later
    · exact recent.2.2 b' earlier b (.head _) idle' (beq_iff_eq.mp idle) used
    · exact absurd same other
    have used' := busy b' (List.mem_reverse.mp later)
    rw [idle'] at used'
    cases used'
  · cases got

/-! ### Preservation -/

omit [Fintype P] in
theorem change_pins (s : BufSys P β) (p : P) (pc : BufPc) (b : Nat) (x : Buf P β) :
    s.change p pc b x (s.pins b) = (s.setBuf b x).goto p pc := by
  simp only [BufSys.change, update_eq_self]
  rfl

omit [Fintype P] in
theorem change_pc (s : BufSys P β) (p : P) (b : Nat) (x : Buf P β) (pins : Nat) :
    s.change p (s.pc p) b x pins = { s.setBuf b x with pins := update s.pins b pins } := by
  simp only [BufSys.change, goto, setBuf, update_eq_self]

section

variable (inv : s.Inv order)
include inv

theorem Inv.hit (ready : s.pc p = .ready) (used : s.used b = true) :
    ({ s with
      cache := s.cache.setBuf b { s.buf b with refcnt := (s.buf b).refcnt + 1 }
      used := update s.used b true }.goto p (.waiting b)).Inv order := by
  have same : update s.used b true = s.used := by
    rw [← used, update_eq_self]
  have changed := inv.change p (.waiting b) b { s.buf b with refcnt := (s.buf b).refcnt + 1 }
    (s.pins b) rfl rfl nofun (fun _ => used) (by simp [ready]; omega)
    (fun b' other => by simp [ready, Ne.symm other]) (fun _ _ lock => lock)
    nofun
  rw [change_pins] at changed
  rw [same]
  exact changed

omit [DecidableEq P] in
/-- A buffer without users has no lock, no pins and nobody on the way. -/
theorem Inv.idle (idle : (s.buf b).refcnt = 0) : (s.buf b).lock = none := by
  have counted := inv.counted b
  rw [idle, holders] at counted
  cases lock : (s.buf b).lock with
  | none => rfl
  | some =>
    rw [lock, Option.isSome_some, if_pos rfl] at counted
    omega

omit [DecidableEq P] in
/-- A buffer without users is assigned another block, which no buffer has. -/
theorem Inv.recycle (range : b < nbuf) (next : s'.cache.next = s.cache.next)
    (prev : s'.cache.prev = s.cache.prev) (idleSince : s'.idleSince = s.idleSince)
    (clock : s'.clock = s.clock) (used : s'.used b = true) (busy : (s'.buf b).refcnt ≠ 0)
    (real : (s'.buf b).dev ≠ 0)
    (others : ∀ b', b' ≠ b → s'.buf b' = s.buf b' ∧ s'.used b' = s.used b')
    (absent : ∀ b', b' < nbuf → ¬ ((s.buf b').dev = (s'.buf b).dev ∧
      (s.buf b').blockno = (s'.buf b).blockno))
    (counted : ∀ b', (s'.buf b').refcnt = s'.holders b' + s'.waiters b' + s'.pins b')
    (filling : ∀ q b', s'.pc q = .filling b' → (s'.buf b').lock = some q) : s'.Inv order where
  all := inv.all
  linked := by
    rw [BCache.Linked, next, prev]
    exact inv.linked
  counted := counted
  inRange b' used' := by
    by_cases same : b' = b
    · exact same ▸ range
    · rw [(others b' same).2] at used'
      exact inv.inRange b' used'
  unused b' unused := by
    have other : b' ≠ b := by
      rintro rfl
      rw [used] at unused
      cases unused
    rw [(others b' other).1]
    rw [(others b' other).2] at unused
    exact inv.unused b' unused
  device b' used' := by
    by_cases same : b' = b
    · exact same ▸ real
    rw [(others b' same).2] at used'
    rw [(others b' same).1]
    exact inv.device b' used'
  unique b₁ b₂ used₁ used₂ dev blockno := by
    by_cases first : b₁ = b
    · by_cases second : b₂ = b
      · exact first.trans second.symm
      subst first
      rw [(others b₂ second).1] at dev blockno
      rw [(others b₂ second).2] at used₂
      exact absurd ⟨dev.symm, blockno.symm⟩ (absent b₂ (inv.inRange b₂ used₂))
    rw [(others b₁ first).1] at dev blockno
    rw [(others b₁ first).2] at used₁
    by_cases second : b₂ = b
    · subst second
      exact absurd ⟨dev, blockno⟩ (absent b₁ (inv.inRange b₁ used₁))
    rw [(others b₂ second).1] at dev blockno
    rw [(others b₂ second).2] at used₂
    exact inv.unique b₁ b₂ used₁ used₂ dev blockno
  recent := by
    apply inv.recent.imp
    intro b₁ b₂ recent idle₁ idle₂ used₂
    have first : b₁ ≠ b := by
      rintro rfl
      exact busy idle₁
    have second : b₂ ≠ b := by
      rintro rfl
      exact busy idle₂
    rw [(others b₁ first).1] at idle₁
    rw [(others b₂ second).1] at idle₂
    rw [(others b₂ second).2] at used₂
    rw [(others b₁ first).2, idleSince]
    exact recent idle₁ idle₂ used₂
  past b' used' idle := by
    have other : b' ≠ b := by
      rintro rfl
      exact busy idle
    rw [(others b' other).1] at idle
    rw [(others b' other).2] at used'
    rw [idleSince, clock]
    exact inv.past b' used' idle
  filling := filling

theorem Inv.miss {dev blockno : UInt32} (ready : s.pc p = .ready)
    (real : dev ≠ 0) (range : b < nbuf) (idle : (s.buf b).refcnt = 0)
    (absent : ∀ b', b' < nbuf → ¬ ((s.buf b').dev = dev ∧ (s.buf b').blockno = blockno)) :
    ({ s with
      cache := s.cache.setBuf b
        { s.buf b with dev := dev, blockno := blockno, valid := false, refcnt := 1 }
      used := update s.used b true }.goto p (.waiting b)).Inv order := by
  have lock := inv.idle idle
  generalize recycled : { s.buf b with
    dev := dev, blockno := blockno, valid := false, refcnt := 1 } = x
  have changed := s.change_pins p (.waiting b) b x
  have counted := inv.change_counted p (.waiting b) b x (s.pins b)
    (by simp [ready, idle, ← recycled]; omega) (fun b' other => by simp [ready, Ne.symm other])
  have filling := inv.change_filling p (.waiting b) b x (s.pins b)
    (fun _ _ locked => by rw [lock] at locked; cases locked) nofun
  rw [changed] at counted filling
  have here : update s.cache.buf b x b = x := update_self _ _ _
  refine inv.recycle range rfl rfl rfl rfl (update_self _ _ _) ?_ ?_ ?_ ?_ counted
    filling
  · rw [show BufSys.buf _ b = x from here, ← recycled]
    exact Nat.one_ne_zero
  · rw [show BufSys.buf _ b = x from here, ← recycled]
    exact real
  · intro b' other
    exact ⟨update_of_ne other _ _, update_of_ne other _ _⟩
  intro b' range'
  rw [show BufSys.buf _ b = x from here, ← recycled]
  exact absent b' range'

omit [DecidableEq P] in
/-- The last user lets a buffer go: it moves to the front of the ring. -/
theorem Inv.release (range : b < nbuf) (used : s.used b = true)
    (linked : s'.cache.Linked (b :: order.erase b)) (idle : (s'.buf b).refcnt = 0)
    (block : (s'.buf b).dev = (s.buf b).dev ∧ (s'.buf b).blockno = (s.buf b).blockno)
    (others : ∀ b', b' ≠ b → s'.buf b' = s.buf b' ∧ s'.idleSince b' = s.idleSince b')
    (same : s'.used = s.used) (now : s'.idleSince b = s.clock) (clock : s'.clock = s.clock + 1)
    (counted : ∀ b', (s'.buf b').refcnt = s'.holders b' + s'.waiters b' + s'.pins b')
    (filling : ∀ q b', s'.pc q = .filling b' → (s'.buf b').lock = some q) :
    s'.Inv (b :: order.erase b) where
  all := (List.perm_cons_erase ((inv.mem_iff b).mpr range)).symm.trans inv.all
  linked := linked
  counted := counted
  inRange b' used' := inv.inRange b' (same ▸ used')
  unused b' unused := by
    rw [same] at unused
    have other : b' ≠ b := by
      rintro rfl
      rw [used] at unused
      cases unused
    rw [(others b' other).1]
    exact inv.unused b' unused
  device b' used' := by
    rw [same] at used'
    by_cases here : b' = b
    · subst here
      rw [block.1]
      exact inv.device b' used'
    · rw [(others b' here).1]
      exact inv.device b' used'
  unique b₁ b₂ used₁ used₂ dev blockno := by
    have blocks : ∀ b', (s'.buf b').dev = (s.buf b').dev ∧
        (s'.buf b').blockno = (s.buf b').blockno := by
      intro b'
      by_cases here : b' = b
      · exact here ▸ block
      · rw [(others b' here).1]
        exact ⟨rfl, rfl⟩
    rw [same] at used₁ used₂
    rw [(blocks b₁).1, (blocks b₂).1] at dev
    rw [(blocks b₁).2, (blocks b₂).2] at blockno
    exact inv.unique b₁ b₂ used₁ used₂ dev blockno
  recent := by
    have distinct : order.Nodup := inv.all.nodup_iff.mpr List.nodup_range
    constructor
    · intro b' mem _ idle' used'
      have other : b' ≠ b := by
        rintro rfl
        exact distinct.not_mem_erase mem
      rw [(others b' other).1] at idle'
      rw [same] at used' ⊢
      rw [(others b' other).2, now]
      exact ⟨used, inv.past b' used' idle'⟩
    have rest : (order.erase b).Pairwise s.Recent := inv.recent.sublist List.erase_sublist
    apply rest.imp_of_mem
    intro b₁ b₂ member₁ member₂ recent idle₁ idle₂ used₂
    have first : b₁ ≠ b := by
      rintro rfl
      exact distinct.not_mem_erase member₁
    have second : b₂ ≠ b := by
      rintro rfl
      exact distinct.not_mem_erase member₂
    rw [(others b₁ first).1] at idle₁
    rw [(others b₂ second).1] at idle₂
    rw [same] at used₂ ⊢
    rw [(others b₁ first).2, (others b₂ second).2]
    exact recent idle₁ idle₂ used₂
  past b' used' idle' := by
    rw [same] at used'
    rw [clock]
    by_cases here : b' = b
    · subst here
      rw [now]
      exact Nat.lt_succ_self _
    · rw [(others b' here).1] at idle'
      rw [(others b' here).2]
      exact Nat.lt_succ_of_lt (inv.past b' used' idle')
  filling := filling

theorem Inv.put (place : s.pc p = .releasing b) : ∃ order', (s.put p b).Inv order' := by
  have counted := inv.counted b
  have mine : 0 < occurrences s.pc (.releasing b) := occurrences_pos.mpr ⟨p, place⟩
  rw [holders] at counted
  have pos : 0 < (s.buf b).refcnt := by omega
  have used := inv.used_of_pos pos
  generalize decreased : { s.buf b with refcnt := (s.buf b).refcnt - 1 } = x
  have refcnt : x.refcnt = (s.buf b).refcnt - 1 := by rw [← decreased]
  have lock : x.lock = (s.buf b).lock := by rw [← decreased]
  have here : (s.cache.setBuf b x).buf b = x := update_self _ _ _
  have balance : x.refcnt + (if (s.buf b).lock.isSome then 1 else 0) + uses (s.pc p) b +
      s.pins b = (s.buf b).refcnt + (if x.lock.isSome then 1 else 0) + uses .ready b + s.pins b := by
    rw [place, refcnt, lock]
    simp only [uses_releasing, uses_ready, if_true]
    omega
  have elsewhere : ∀ b', b' ≠ b → uses (s.pc p) b' = uses .ready b' := by
    intro b' other
    rw [place]
    simp [Ne.symm other]
  have others : ∀ q, q ≠ p → (s.buf b).lock = some q → x.lock = some q := by
    intro q _ locked
    rw [lock]
    exact locked
  have self : ∀ b', BufPc.ready = .filling b' → b' = b ∧ x.lock = some p := nofun
  have changed := s.change_pins p .ready b x
  by_cases last : (s.buf b).refcnt = 1
  · refine ⟨b :: order.erase b, ?_⟩
    have counted' := inv.change_counted p .ready b x (s.pins b) balance elsewhere
    have filling' := inv.change_filling p .ready b x (s.pins b) others self
    rw [changed] at counted' filling'
    have mem : b ∈ order := (inv.mem_iff b).mpr (inv.inRange b used)
    have distinct := inv.linked.nodup
    have linked : (s.cache.setBuf b x).Linked order := inv.linked
    have moved : (((s.cache.setBuf b x).unlink b).insert b).Linked (b :: order.erase b) := by
      apply (linked.unlink mem).insert
      rw [List.mem_cons, not_or]
      constructor
      · rintro rfl
        exact inv.linked.head_not_mem mem
      · exact (List.nodup_cons.mp distinct).2.not_mem_erase
    have zero : ((s.cache.setBuf b x).buf b).refcnt = 0 := by
      rw [here]
      omega
    have cache : s.cache.put b = ((s.cache.setBuf b x).unlink b).insert b := by
      simp only [BCache.put, decreased, zero, if_true]
    rw [BufSys.put, if_pos last, cache]
    refine inv.release (inv.inRange b used) used moved zero ?_ ?_ rfl (update_self _ _ _)
      rfl counted' filling'
    · rw [show BufSys.buf _ b = x from here, ← decreased]
      exact ⟨rfl, rfl⟩
    · intro _ other
      exact ⟨update_of_ne other _ _, update_of_ne other _ _⟩
  refine ⟨order, ?_⟩
  have ne0 : ((s.cache.setBuf b x).buf b).refcnt ≠ 0 := by
    rw [here]
    omega
  have cache : s.cache.put b = s.cache.setBuf b x := by
    simp only [BCache.put, decreased, ne0, if_false]
  rw [BufSys.put, if_neg last, cache]
  rw [here] at ne0
  have kept := inv.change p .ready b x (s.pins b) (by rw [← decreased]) (by rw [← decreased])
    (fun zero => absurd zero ne0) (fun _ => used) balance elsewhere others self
  rw [changed] at kept
  exact kept

/-- The holder of a buffer changes its contents or its pins. -/
theorem Inv.held (x : Buf P β) (k : Nat) (ready : s.pc p = .ready)
    (locked : (s.buf b).lock = some p) (dev : x.dev = (s.buf b).dev)
    (blockno : x.blockno = (s.buf b).blockno) (lock : x.lock = (s.buf b).lock)
    (balance : x.refcnt + s.pins b = (s.buf b).refcnt + k) (pos : 0 < x.refcnt) :
    BufSys.Inv { s.setBuf b x with pins := update s.pins b k } order := by
  have counted := inv.counted b
  rw [holders, locked, Option.isSome_some, if_pos rfl] at counted
  have used : s.used b = true := inv.used_of_pos (by omega)
  rw [← s.change_pc p]
  apply inv.change p (s.pc p) b x k dev blockno
  · intro _
    omega
  · exact fun _ => used
  · rw [lock]
    omega
  · exact fun _ _ => rfl
  · intro q _ other
    rw [lock]
    exact other
  · intro _ place
    rw [ready] at place
    cases place

/-- A process gets the lock it waits for. -/
theorem Inv.acquire (place : s.pc p = .waiting b) (free : (s.buf b).lock = none)
    : (s.acquire p b).Inv order := by
  have counted := inv.counted b
  have waiting : 0 < s.waiters b := occurrences_pos.mpr ⟨p, place⟩
  have used : s.used b = true := inv.used_of_pos (by omega)
  rw [BufSys.acquire, ← s.change_pins]
  apply inv.change p (.filling b) b { s.buf b with lock := some p } (s.pins b) rfl rfl
  · exact id
  · exact fun _ => used
  · rw [place, free]
    simp only [uses_waiting, uses_filling, if_true, Option.isSome_none, Option.isSome_some,
      Bool.false_eq_true, if_false]
  · intro b' other
    rw [place]
    simp [Ne.symm other]
  · intro q _ locked
    rw [free] at locked
    cases locked
  · intro _ same
    cases same
    exact ⟨rfl, rfl⟩

/-- The contents of a buffer are read. -/
theorem Inv.fill (place : s.pc p = .filling b) : (s.fill p b).Inv order := by
  have locked := inv.filling p b place
  have counted := inv.counted b
  rw [holders, locked, Option.isSome_some, if_pos rfl] at counted
  have used : s.used b = true := inv.used_of_pos (by omega)
  have filled : ∀ x : Buf P β, x.dev = (s.buf b).dev → x.blockno = (s.buf b).blockno →
      x.lock = (s.buf b).lock → x.refcnt = (s.buf b).refcnt →
      ((s.setBuf b x).goto p .ready).Inv order := by
    intro x dev blockno lock refcnt
    rw [← s.change_pins]
    apply inv.change p .ready b x (s.pins b) dev blockno
    · rw [refcnt]
      exact id
    · exact fun _ => used
    · rw [place, lock, refcnt]
      rfl
    · intro b' _
      rw [place]
      rfl
    · intro q _ other
      rw [lock]
      exact other
    · intro _ absurd
      cases absurd
  rw [BufSys.fill]
  split
  · have same := filled (s.buf b) rfl rfl rfl rfl
    have id : s.setBuf b (s.buf b) = s := by
      simp only [setBuf, BCache.setBuf, buf, update_eq_self]
    rwa [id] at same
  · exact filled _ rfl rfl rfl rfl

/-- `brelse` gives the lock up. -/
theorem Inv.brelse (ready : s.pc p = .ready) (locked : (s.buf b).lock = some p)
    : ((s.setBuf b { s.buf b with lock := none }).goto p (.releasing b)).Inv order := by
  have counted := inv.counted b
  rw [holders, locked, Option.isSome_some, if_pos rfl] at counted
  have used : s.used b = true := inv.used_of_pos (by omega)
  rw [← s.change_pins]
  apply inv.change p (.releasing b) b { s.buf b with lock := none } (s.pins b) rfl rfl
  · exact id
  · exact fun _ => used
  · rw [ready, locked]
    simp only [uses_ready, uses_releasing, if_true, Option.isSome_some, Option.isSome_none,
      Bool.false_eq_true, if_false]
  · intro b' other
    rw [ready]
    simp [Ne.symm other]
  · intro q other locked'
    rw [locked] at locked'
    cases locked'
    exact absurd rfl other
  · intro _ absurd
    cases absurd

/-- Every step keeps the invariant, with some order of the ring. -/
theorem Inv.step (ran : s.step act = some s') : ∃ order', s'.Inv order' := by
  cases act with
  | bread p _ _ =>
    simp only [BufSys.step, bread] at ran
    split at ran
    · rename_i allowed
      split at ran
      · rename_i b cache got
        cases ran
        refine ⟨order, ?_⟩
        cases inv.bget got with
        | hit _ block found =>
          subst found
          apply inv.hit allowed.1
          by_contra unused
          rw [Bool.not_eq_true] at unused
          rw [(inv.unused b unused).1] at block
          exact allowed.2 block.1.symm
        | miss absent range idle _ recycled =>
          subst recycled
          exact inv.miss allowed.1 allowed.2 range idle absent
      · cases ran
    · cases ran
  | advance p =>
    simp only [BufSys.step] at ran
    split at ran
    · cases ran
    · rename_i b place
      split at ran
      · rename_i free
        cases ran
        exact ⟨order, inv.acquire place free⟩
      · cases ran
    · rename_i b place
      cases ran
      exact ⟨order, inv.fill place⟩
    · rename_i b place
      cases ran
      exact inv.put place
  | modify p b data =>
    simp only [BufSys.step] at ran
    split at ran
    · rename_i allowed
      cases ran
      have counted := inv.counted b
      rw [holders, allowed.2, Option.isSome_some, if_pos rfl] at counted
      have kept := inv.held { s.buf b with data := data } (s.pins b) allowed.1 allowed.2 rfl rfl
        rfl rfl (by dsimp only; omega)
      rw [update_eq_self] at kept
      exact ⟨order, kept⟩
    · cases ran
  | bwrite =>
    simp only [BufSys.step] at ran
    split at ran
    · cases ran
      exact ⟨order, inv.all, inv.linked, inv.counted, inv.inRange, inv.unused, inv.device,
        inv.unique, inv.recent, inv.past, inv.filling⟩
    · cases ran
  | bpin p b =>
    simp only [BufSys.step] at ran
    split at ran
    · rename_i allowed
      cases ran
      refine ⟨order, inv.held _ _ allowed.1 allowed.2 rfl rfl rfl ?_ (Nat.succ_pos _)⟩
      dsimp only
      omega
    · cases ran
  | bunpin p b =>
    simp only [BufSys.step] at ran
    split at ran
    · rename_i allowed
      obtain ⟨ready, locked, _⟩ := allowed
      cases ran
      have counted := inv.counted b
      rw [holders, locked, Option.isSome_some, if_pos rfl] at counted
      refine ⟨order, inv.held _ _ ready locked rfl rfl rfl ?_ ?_⟩
      · dsimp only
        omega
      · dsimp only
        omega
    · cases ran
  | brelse p b =>
    simp only [BufSys.step] at ran
    split at ran
    · rename_i allowed
      cases ran
      exact ⟨order, inv.brelse allowed.1 allowed.2⟩
    · cases ran

/-! ### What stays in a buffer that is in use -/

end

/-- Buffer `b` keeps its block and what it holds of it, but for what a process that
holds the lock puts into it. -/
structure Kept (b : Nat) (act : BufAction P β) (s s' : BufSys P β) : Prop where
  dev : (s'.buf b).dev = (s.buf b).dev
  blockno : (s'.buf b).blockno = (s.buf b).blockno
  valid : (s.buf b).valid = true → (s'.buf b).valid = true
  data : (s'.buf b).data = (s.buf b).data ∨ (s.buf b).valid = false ∨
    ∃ p data, act = .modify p b data ∧ (s.buf b).lock = some p

omit [DecidableEq P] [Fintype P] in
theorem Kept.of_same (dev : (s'.buf b).dev = (s.buf b).dev)
    (blockno : (s'.buf b).blockno = (s.buf b).blockno) (valid : (s'.buf b).valid = (s.buf b).valid)
    (data : (s'.buf b).data = (s.buf b).data) : Kept b act s s' :=
  ⟨dev, blockno, fun old => valid.trans old, .inl data⟩

omit [DecidableEq P] [Fintype P] in
/-- Another buffer is changed, or this one in its lock and its count only. -/
theorem Kept.of_update {b' : Nat} {x : Buf P β} (changed : s'.cache.buf = update s.cache.buf b' x)
    (same : x.dev = (s.buf b').dev ∧ x.blockno = (s.buf b').blockno ∧
      x.valid = (s.buf b').valid ∧ x.data = (s.buf b').data) : Kept b act s s' := by
  by_cases here : b = b'
  · subst here
    have own : s'.buf b = x := by
      rw [buf, changed, update_self]
    apply Kept.of_same
    · rw [own, same.1]
    · rw [own, same.2.1]
    · rw [own, same.2.2.1]
    · rw [own, same.2.2.2]
  have own : s'.buf b = s.buf b := by
    rw [buf, changed, update_of_ne here]
  apply Kept.of_same
  · rw [own]
  · rw [own]
  · rw [own]
  · rw [own]

omit [Fintype P] in
theorem put_buf (s : BufSys P β) (p : P) (b : Nat) : (s.put p b).cache.buf =
    update s.cache.buf b { s.buf b with refcnt := (s.buf b).refcnt - 1 } := by
  have cache : (s.cache.put b).buf =
      update s.cache.buf b { s.buf b with refcnt := (s.buf b).refcnt - 1 } := by
    simp only [BCache.put]
    split
    · rfl
    · rfl
  rw [BufSys.put]
  split
  · exact cache
  · exact cache

/-- A buffer with users is not recycled. -/
theorem Inv.kept (inv : s.Inv order) (ran : s.step act = some s')
    (pos : 0 < (s.buf b).refcnt) : Kept b act s s' := by
  cases act with
  | bread p dev blockno =>
    simp only [BufSys.step, bread] at ran
    split at ran
    · split at ran
      · rename_i b' cache got
        cases ran
        cases inv.bget got with
        | hit _ _ found =>
          subst found
          exact .of_update rfl ⟨rfl, rfl, rfl, rfl⟩
        | miss _ _ _ _ recycled =>
          subst recycled
          have other : b ≠ b' := by
            rintro rfl
            omega
          have own : update s.cache.buf b' { s.buf b' with
              dev := dev, blockno := blockno, valid := false, refcnt := 1 } b = s.buf b :=
            update_of_ne other _ _
          apply Kept.of_same
          · exact congrArg Buf.dev own
          · exact congrArg Buf.blockno own
          · exact congrArg Buf.valid own
          · exact congrArg Buf.data own
      · cases ran
    · cases ran
  | advance p =>
    simp only [BufSys.step] at ran
    split at ran
    · cases ran
    · split at ran
      · cases ran
        exact .of_update rfl ⟨rfl, rfl, rfl, rfl⟩
      · cases ran
    · rename_i b' place
      cases ran
      unfold BufSys.fill
      split
      · exact .of_same rfl rfl rfl rfl
      rename_i stale
      by_cases here : b = b'
      · subst here
        have own : ((s.setBuf b { s.buf b with
            data := s.disk (s.buf b).dev (s.buf b).blockno, valid := true }).goto p
            .ready).buf b = _ := update_self _ _ _
        refine ⟨?_, ?_, fun valid => absurd valid stale,
          .inr (.inl ((Bool.not_eq_true _).mp stale))⟩
        · rw [own]
        · rw [own]
      have own : ((s.setBuf b' { s.buf b' with
          data := s.disk (s.buf b').dev (s.buf b').blockno, valid := true }).goto p
          .ready).buf b = s.buf b := update_of_ne here _ _
      apply Kept.of_same
      · rw [own]
      · rw [own]
      · rw [own]
      · rw [own]
    · cases ran
      exact .of_update (s.put_buf p _) ⟨rfl, rfl, rfl, rfl⟩
  | modify p b' data =>
    simp only [BufSys.step] at ran
    split at ran
    · rename_i allowed
      cases ran
      by_cases here : b = b'
      · subst here
        have own : (s.setBuf b { s.buf b with data := data }).buf b = _ := update_self _ _ _
        refine ⟨?_, ?_, fun valid => ?_, .inr (.inr ⟨p, data, rfl, allowed.2⟩)⟩
        · rw [own]
        · rw [own]
        · rw [own]
          exact valid
      have own : (s.setBuf b' { s.buf b' with data := data }).buf b = s.buf b :=
        update_of_ne here _ _
      apply Kept.of_same
      · rw [own]
      · rw [own]
      · rw [own]
      · rw [own]
    · cases ran
  | bwrite =>
    simp only [BufSys.step] at ran
    split at ran
    · cases ran
      exact .of_same rfl rfl rfl rfl
    · cases ran
  | bpin =>
    simp only [BufSys.step] at ran
    split at ran
    · cases ran
      exact .of_update rfl ⟨rfl, rfl, rfl, rfl⟩
    · cases ran
  | bunpin =>
    simp only [BufSys.step] at ran
    split at ran
    · cases ran
      exact .of_update rfl ⟨rfl, rfl, rfl, rfl⟩
    · cases ran
  | brelse =>
    simp only [BufSys.step] at ran
    split at ran
    · cases ran
      exact .of_update rfl ⟨rfl, rfl, rfl, rfl⟩
    · cases ran

/-- A pinned buffer keeps its contents until somebody who holds it changes them. -/
theorem Inv.pinned (inv : s.Inv order) (valid : (s.buf b).valid = true)
    (run : Run BufSys.step (fun t act => 0 < t.pins b ∧ ∀ p data, act ≠ .modify p b data)
      s s') : (∃ order', s'.Inv order') ∧ (s'.buf b).dev = (s.buf b).dev ∧
      (s'.buf b).blockno = (s.buf b).blockno ∧ (s'.buf b).valid = true ∧
      (s'.buf b).data = (s.buf b).data := by
  induction run with
  | refl => exact ⟨⟨order, inv⟩, rfl, rfl, valid, rfl⟩
  | tail _ legal ran ih =>
    obtain ⟨⟨_, inv'⟩, dev, blockno, valid', data⟩ := ih
    have counted := inv'.counted b
    have kept := inv'.kept ran (b := b) (by omega)
    refine ⟨inv'.step ran, kept.dev.trans dev, kept.blockno.trans blockno, kept.valid valid', ?_⟩
    rcases kept.data with same | stale | ⟨p, new, modified, _⟩
    · exact same.trans data
    · rw [valid'] at stale
      cases stale
    · exact absurd modified (legal.2 p new)

end BufSys

/-- The buffer cache after `binit`, under any interleaving of processes.  The links form one
ring of all buffers, no two of which have been assigned the same block.  The count of a buffer
is that of its users and pins.  A buffer with users keeps its block, and a pinned one its
contents until a holder changes them.  A recycled buffer has no users, and was never assigned
or has been without users longest. -/
theorem bufferCache_invariant {P β : Type} [DecidableEq P] [Fintype P] {page : Nat → β}
    {disk : UInt32 → UInt32 → β} {s : BufSys P β}
    (reached : Run BufSys.step (fun _ _ => True) (BufSys.init page disk) s) :
    (∃ order, order.Perm (List.range nbuf) ∧ Ring s.cache.next s.cache.prev BCache.head order) ∧
    (∀ b b', s.used b = true → s.used b' = true → (s.buf b).dev = (s.buf b').dev →
      (s.buf b).blockno = (s.buf b').blockno → b = b') ∧
    (∀ b, (s.buf b).refcnt = s.holders b + s.waiters b + s.pins b) ∧
    (∀ act s' b, s.step act = some s' → 0 < (s.buf b).refcnt →
      (s'.buf b).dev = (s.buf b).dev ∧ (s'.buf b).blockno = (s.buf b).blockno) ∧
    (∀ s' b, (s.buf b).valid = true →
      Run BufSys.step (fun t act => 0 < t.pins b ∧ ∀ p data, act ≠ .modify p b data) s s' →
      (s'.buf b).dev = (s.buf b).dev ∧ (s'.buf b).blockno = (s.buf b).blockno ∧
        (s'.buf b).data = (s.buf b).data) ∧
    ∀ dev blockno b cache, s.cache.bget dev blockno = some (b, cache) →
      (∀ b', b' < nbuf → ¬ ((s.buf b').dev = dev ∧ (s.buf b').blockno = blockno)) →
      b < nbuf ∧ (s.buf b).refcnt = 0 ∧
        (s.used b = false ∨ ∀ b', b' < nbuf → b' ≠ b → (s.buf b').refcnt = 0 →
          s.used b' = true ∧ s.idleSince b < s.idleSince b') := by
  have holds : ∃ order, s.Inv order := by
    apply reached.invariant (P := fun s => ∃ order, BufSys.Inv s order)
    · exact ⟨_, BufSys.init_inv page disk⟩
    intro _ act _ inv _ ran
    obtain ⟨_, inv⟩ := inv
    exact inv.step ran
  obtain ⟨order, inv⟩ := holds
  refine ⟨⟨order, inv.all, inv.linked⟩, inv.unique, inv.counted, ?_, ?_, ?_⟩
  · intro _ s' b ran pos
    have kept := inv.kept ran pos
    exact ⟨kept.dev, kept.blockno⟩
  · intro _ b valid run
    obtain ⟨_, dev, blockno, _, data⟩ := inv.pinned valid run
    exact ⟨dev, blockno, data⟩
  intro _ _ b _ got absent
  cases inv.bget got with
  | hit range block =>
    exact absurd block (absent b range)
  | miss _ range idle oldest =>
    refine ⟨range, idle, ?_⟩
    cases used : s.used b with
    | false => exact .inl rfl
    | true =>
      refine .inr fun b' range' other idle' => ?_
      exact oldest b' range' other idle' used

/-- One process changes a block, pins its buffer and lets it go, while another one
waits for it and then reads a second block. -/
theorem bufferCache_pinned_and_shared : ∃ s : BufSys (Fin 2) UInt8,
    (Run BufSys.step (fun _ _ => True) (BufSys.init (fun _ => 0) fun _ _ => 0) s ∧
      s.pins 0 = 1 ∧ (s.buf 0).data = 9 ∧ s.used 1 = true) ∧
    ∀ b, (s.buf b).refcnt = s.holders b + s.waiters b + s.pins b := by
  have tested : ∃ s : BufSys (Fin 2) UInt8,
      Run BufSys.step (fun _ _ => True) (BufSys.init (fun _ => 0) fun _ _ => 0) s ∧
        s.pins 0 = 1 ∧ (s.buf 0).data = 9 ∧ s.used 1 = true :=
    exists_run_of_runFrom _ _ [.bread 0 1 5, .advance 0, .advance 0, .bread 1 1 5, .modify 0 0 9,
        .bpin 0 0, .brelse 0 0, .advance 1, .advance 0, .advance 1, .bwrite 1 0, .brelse 1 0, .advance 1, .bread 1 1 6,
        .advance 1] (by decide +kernel)
  obtain ⟨s, run, facts⟩ := tested
  exact ⟨s, ⟨run, facts⟩, (bufferCache_invariant run).2.2.1⟩

end CustomXv6

/-
Module: CustomXv6.Kernel.Log
Purpose: The log (kernel/log.c), its writes one at a time, crashes, and the space it reserves.
Trusted boundary: human-reviewed spec
Main exports: LogDisk.step, logStep_cases, log_space
-/
import CustomXv6.Kernel.FileSystem
import CustomXv6.Lib.RedoLog

namespace CustomXv6

open Transition
open Function

/-! ### The disk, the buffer cache and the operations -/

variable {α : Type*}

/-- What a block holds: data of the file system, or a log header, the first
`n` entries of its `block` array. -/
inductive Sector (α : Type*) where
  | data (bytes : α)
  | header (block : List UInt32)
deriving DecidableEq, Repr

/-- The list of blocks that `read_head` finds in a block. -/
def Sector.blocks : Sector α → List UInt32
  | .header block => block
  | .data _ => []

/-- An operation that has begun and not ended.  Nothing of it is recorded by
the code: `blocks` is a bound on the number of distinct blocks it logs,
`logged` are those it has logged so far, and `stopped` says that it was stopped
by a panic. -/
structure LogOp where
  id : Nat
  blocks : Nat
  logged : List UInt32 := []
  stopped : Bool := false
deriving DecidableEq, Repr

/-- A block changed and handed to `log_write` by an operation. -/
structure LogWrite (α : Type*) where
  op : Nat
  blockno : UInt32
  bytes : α
deriving DecidableEq, Repr

/-- The write as a change of the disk. -/
def LogWrite.entry (write : LogWrite α) : UInt32 × Sector α := (write.blockno, .data write.bytes)

/-- Where the process in `commit`, or the one in `recover_from_log`, is. -/
inductive LogPc where
  /-- Neither is running. -/
  | idle
  /-- At the test of `log.lh.n` in `commit`. -/
  | commit
  /-- At the head of the loop of `write_log`. -/
  | writeLog (tail : Nat)
  /-- At the `write_head` that commits. -/
  | writeHead
  /-- At the head of the loop of `install_trans`. -/
  | installTrans (recovering : Bool) (tail : Nat)
  /-- At `log.lh.n = 0` and the `write_head` that clears the log. -/
  | clearHead (recovering : Bool)
  /-- At the second critical section of `end_op`. -/
  | committed
  /-- At `read_head` in `recover_from_log`. -/
  | readHead
deriving DecidableEq, Repr

def LogPc.recovering : LogPc → Bool
  | .readHead => true
  | .installTrans recovering _ => recovering
  | .clearHead recovering => recovering
  | _ => false

/-- Some process is between the two critical sections of its `end_op`. -/
def LogPc.committing : LogPc → Bool
  | .idle => false
  | .readHead => false
  | .installTrans recovering _ => !recovering
  | .clearHead recovering => !recovering
  | _ => true

/-- The log with its disk.  `cache` is what `bread` returns, and `pinned` are the blocks that
`bpin` keeps in the cache.  The last fields are a history that the code does not keep: the
operations in progress and the number of the next one, those that have ended, the writes logged
since the last commit, the committed groups and all writes ever logged, the latest first. -/
structure LogDisk (α : Type*) where
  start : UInt32
  log : Log
  disk : UInt32 → Sector α
  cache : UInt32 → Sector α
  pinned : List UInt32
  pc : LogPc
  panicked : Option Panic
  ops : List LogOp
  nextOp : Nat
  ended : List Nat
  group : List (LogWrite α)
  commits : List (List (LogWrite α))
  trace : List (LogWrite α)

/-- The steps: the calls of the operations, the next step of a commit or a
recovery, the recycling of a buffer, and a crash followed by a restart. -/
inductive LogAction (α : Type*) where
  | beginOp (blocks : Nat)
  /-- The operation changes the contents of a block to `bytes` and calls
  `log_write`. -/
  | logWrite (op : Nat) (blockno : UInt32) (bytes : α)
  | endOp (op : Nat)
  | io
  | evict (blockno : UInt32)
  | crash
deriving DecidableEq, Repr

namespace LogDisk

/-- The block belongs to the log: the header block and the data blocks behind
it. -/
def inLog (s : LogDisk α) (b : UInt32) : Prop := (b - s.start).toNat < s.log.size.toNat

instance (s : LogDisk α) (b : UInt32) : Decidable (s.inLog b) := inferInstanceAs (Decidable (_ < _))

def home (s : LogDisk α) (b : UInt32) : Prop := ¬ s.inLog b

/-- `log.start+tail+1`. -/
def slot (s : LogDisk α) (tail : Nat) : UInt32 := s.start + UInt32.ofNat tail + 1

/-- Change the contents of a buffer and `bwrite` it. -/
def bwrite (s : LogDisk α) (b : UInt32) (sector : Sector α) : LogDisk α :=
  { s with
    cache := update s.cache b sector
    disk := update s.disk b sector }

def writeHead (s : LogDisk α) : LogDisk α := s.bwrite s.start (.header s.log.lh)

def beginOp (s : LogDisk α) (blocks : Nat) : LogDisk α :=
  { s with
    log := s.log.beginOp
    ops := { id := s.nextOp, blocks := blocks } :: s.ops
    nextOp := s.nextOp + 1 }

/-- The operation with this number, if it can go on. -/
def findOp (s : LogDisk α) (id : Nat) : Option LogOp :=
  s.ops.find? fun op => op.id = id && !op.stopped

/-- The operations, with one of them changed. -/
def updateOp (s : LogDisk α) (id : Nat) (change : LogOp → LogOp) : List LogOp :=
  s.ops.map fun op => if op.id = id then change op else op

def panic (s : LogDisk α) (op : LogOp) (reason : Panic) : LogDisk α :=
  { s with
    panicked := some reason
    ops := s.updateOp op.id fun op => { op with stopped := true } }

/-- `log_write`.  A block that is new to the log is pinned. -/
def logWrite (s : LogDisk α) (op : LogOp) (blockno : UInt32) (bytes : α) : LogDisk α :=
  match s.log.logWrite blockno with
  | .error reason => s.panic op reason
  | .ok log =>
    let write : LogWrite α := { op := op.id, blockno := blockno, bytes := bytes }
    { s with
      log := log
      cache := update s.cache blockno (.data bytes)
      pinned := if blockno ∈ s.log.lh then s.pinned else s.pinned ++ [blockno]
      ops := s.updateOp op.id fun op => { op with logged := op.logged.insert blockno }
      group := write :: s.group
      trace := write :: s.trace }

/-- `end_op`, up to the call of `commit`. -/
def endOp (s : LogDisk α) (op : LogOp) : LogDisk α :=
  match s.log.endOp with
  | .error reason => s.panic op reason
  | .ok (log, doCommit) =>
    { s with
      log := log
      ops := s.ops.filter fun other => other.id ≠ op.id
      ended := op.id :: s.ended
      pc := if doCommit then .commit else s.pc }

/-- The next step of `commit` or of `recover_from_log`.  At most one block is
written. -/
def io (s : LogDisk α) : Option (LogDisk α) :=
  match s.pc with
  | .idle => none
  | .commit => some { s with pc := if s.log.lh = [] then .committed else .writeLog 0 }
  | .writeLog tail =>
    match s.log.lh[tail]? with
    | some b => some { s.bwrite (s.slot tail) (s.cache b) with pc := .writeLog (tail + 1) }
    | none => some { s with pc := .writeHead }
  | .writeHead =>
    -- "the true point at which the current transaction commits"
    some
      { s.writeHead with
        pc := .installTrans false 0
        group := []
        commits := s.group :: s.commits }
  | .installTrans recovering tail =>
    match s.log.lh[tail]? with
    | some b =>
      some
        { s.bwrite b (s.cache (s.slot tail)) with
          pc := .installTrans recovering (tail + 1)
          pinned := if recovering then s.pinned else s.pinned.erase b }
    | none => some { s with pc := .clearHead recovering }
  | .clearHead recovering =>
    some
      { { s with log := { s.log with lh := [] } }.writeHead with
        pc := if recovering then .idle else .committed }
  | .committed => some { s with log := { s.log with committing := false }, pc := .idle }
  | .readHead =>
    some
      { s with
        log := { s.log with lh := (s.cache s.start).blocks }
        pc := .installTrans true 0 }

/-- The power fails and the machine is started again: what was in memory is
lost, and `initlog` is called. -/
def crash (s : LogDisk α) : LogDisk α :=
  { s with
    log := { size := s.log.size, outstanding := 0, committing := false, lh := [] }
    cache := s.disk
    pinned := []
    pc := .readHead
    panicked := none
    ops := []
    group := [] }

/-- The transition function.  Operations begin when `initlog` has returned. -/
def step (s : LogDisk α) : LogAction α → Option (LogDisk α)
  | .beginOp blocks =>
    if s.pc.recovering || s.log.mustWait then none else some (s.beginOp blocks)
  | .logWrite id blockno bytes => (s.findOp id).map fun op => s.logWrite op blockno bytes
  | .endOp id => (s.findOp id).map s.endOp
  | .io => s.io
  | .evict b =>
    if b ∈ s.pinned then none
    else some { s with cache := update s.cache b (s.disk b) }
  | .crash => some s.crash

/-- An image with an empty log and the given contents of the other blocks. -/
def image (start : UInt32) (base : UInt32 → α) : UInt32 → Sector α :=
  update (fun b => .data (base b)) start (.header [])

/-- The first start from such an image. -/
def boot (start : UInt32) (size : Int) (base : UInt32 → α) : LogDisk α :=
  { start := start
    log := { size := size, outstanding := 0, committing := false, lh := [] }
    disk := image start base
    cache := image start base
    pinned := []
    pc := .readHead
    panicked := none
    ops := []
    nextOp := 0
    ended := []
    group := []
    commits := []
    trace := [] }

end LogDisk

variable {s s' : LogDisk α}

/-! ### Inversion -/

/-- The steps of a commit or of a recovery. -/
inductive LogIo (s : LogDisk α) : LogDisk α → Prop where
  | nothing (here : s.pc = .commit) (none : s.log.lh = []) : LogIo s { s with pc := .committed }
  | something (here : s.pc = .commit) (some : s.log.lh ≠ []) : LogIo s { s with pc := .writeLog 0 }
  | copies (tail : Nat) (b : UInt32) (here : s.pc = .writeLog tail)
      (named : s.log.lh[tail]? = some b) :
      LogIo s { s.bwrite (s.slot tail) (s.cache b) with pc := .writeLog (tail + 1) }
  | copied (tail : Nat) (here : s.pc = .writeLog tail) (past : s.log.lh.length ≤ tail) :
      LogIo s { s with pc := .writeHead }
  | commits (here : s.pc = .writeHead) :
      LogIo s
        { s.writeHead with
          pc := .installTrans false 0
          group := []
          commits := s.group :: s.commits }
  | installs (recovering : Bool) (tail : Nat) (b : UInt32)
      (here : s.pc = .installTrans recovering tail) (named : s.log.lh[tail]? = some b) :
      LogIo s
        { s.bwrite b (s.cache (s.slot tail)) with
          pc := .installTrans recovering (tail + 1)
          pinned := if recovering then s.pinned else s.pinned.erase b }
  | installed (recovering : Bool) (tail : Nat) (here : s.pc = .installTrans recovering tail)
      (past : s.log.lh.length ≤ tail) : LogIo s { s with pc := .clearHead recovering }
  | clears (recovering : Bool) (here : s.pc = .clearHead recovering) :
      LogIo s
        { { s with log := { s.log with lh := [] } }.writeHead with
          pc := if recovering then .idle else .committed }
  | ends (here : s.pc = .committed) :
      LogIo s { s with log := { s.log with committing := false }, pc := .idle }
  | reads (here : s.pc = .readHead) :
      LogIo s
        { s with
          log := { s.log with lh := (s.cache s.start).blocks }
          pc := .installTrans true 0 }

theorem io_cases (ran : s.io = some s') : LogIo s s' := by
  simp only [LogDisk.io] at ran
  split at ran
  · cases ran
  · rename_i here
    cases ran
    split
    · rename_i none
      exact .nothing here none
    · rename_i some
      exact .something here some
  · rename_i tail here
    split at ran
    · rename_i b named
      cases ran
      exact .copies tail b here named
    · rename_i past
      cases ran
      exact .copied tail here (List.getElem?_eq_none_iff.mp past)
  · rename_i here
    cases ran
    exact .commits here
  · rename_i recovering tail here
    split at ran
    · rename_i b named
      cases ran
      exact .installs recovering tail b here named
    · rename_i past
      cases ran
      exact .installed recovering tail here (List.getElem?_eq_none_iff.mp past)
  · rename_i recovering here
    cases ran
    exact .clears recovering here
  · rename_i here
    cases ran
    exact .ends here
  · rename_i here
    cases ran
    exact .reads here

inductive LogStep (s : LogDisk α) : LogAction α → LogDisk α → Prop where
  | begins (blocks : Nat) (started : s.pc.recovering = false) (admitted : s.log.mustWait = false) :
      LogStep s (.beginOp blocks) (s.beginOp blocks)
  | writes (op : LogOp) (blockno : UInt32) (bytes : α) (found : s.findOp op.id = some op)
      (room : s.log.lh.length < logsize) (fits : (s.log.lh.length : Int) < s.log.size - 1) :
      LogStep s (.logWrite op.id blockno bytes)
        { s with
          log :=
            { s.log with lh := if blockno ∈ s.log.lh then s.log.lh else s.log.lh ++ [blockno] }
          cache := update s.cache blockno (.data bytes)
          pinned := if blockno ∈ s.log.lh then s.pinned else s.pinned ++ [blockno]
          ops := s.updateOp op.id fun op => { op with logged := op.logged.insert blockno }
          group := { op := op.id, blockno := blockno, bytes := bytes } :: s.group
          trace := { op := op.id, blockno := blockno, bytes := bytes } :: s.trace }
  | stops {act : LogAction α} (op : LogOp) (reason : Panic) (found : s.findOp op.id = some op)
      (cause : s.log.endOp = .error reason ∨ ∃ blockno, s.log.logWrite blockno = .error reason) :
      LogStep s act (s.panic op reason)
  | ends (op : LogOp) (found : s.findOp op.id = some op)
      (notLast : s.log.outstanding ≠ 1) :
      LogStep s (.endOp op.id)
        { s with
          log := { s.log with outstanding := s.log.outstanding - 1 }
          ops := s.ops.filter fun other => other.id ≠ op.id
          ended := op.id :: s.ended }
  | commits (op : LogOp) (found : s.findOp op.id = some op) (last : s.log.outstanding = 1) :
      LogStep s (.endOp op.id)
        { s with
          log := { s.log with outstanding := 0, committing := true }
          ops := s.ops.filter fun other => other.id ≠ op.id
          ended := op.id :: s.ended
          pc := .commit }
  | io {s' : LogDisk α} (moved : LogIo s s') : LogStep s .io s'
  | evicts (b : UInt32) (unpinned : b ∉ s.pinned) :
      LogStep s (.evict b) { s with cache := update s.cache b (s.disk b) }
  | crashes : LogStep s .crash s.crash

variable {op : LogOp} {act : LogAction α}

/-- The operation found has the number asked for. -/
theorem findOp_id {id : Nat} (found : s.findOp id = some op) : op.id = id ∧ op ∈ s.ops := by
  have tested := List.find?_some found
  simp only [Bool.and_eq_true, decide_eq_true_eq] at tested
  exact ⟨tested.1, List.mem_of_find?_eq_some found⟩

/-- Every step has one of the listed effects. -/
theorem logStep_cases (ran : s.step act = some s') : LogStep s act s' := by
  cases act with
  | beginOp blocks =>
    simp only [LogDisk.step] at ran
    split at ran
    · cases ran
    rename_i admitted
    simp only [Bool.or_eq_true, not_or, Bool.not_eq_true] at admitted
    cases ran
    exact .begins blocks admitted.1 admitted.2
  | logWrite id blockno bytes =>
    obtain ⟨op, found, rfl⟩ := Option.map_eq_some_iff.mp ran
    obtain ⟨rfl, _⟩ := findOp_id found
    have outcome : ∀ res, s.log.logWrite blockno = res → LogStep s
        (.logWrite op.id blockno bytes) (s.logWrite op blockno bytes) := by
      intro res eq
      simp only [LogDisk.logWrite, eq]
      cases res with
      | error reason => exact .stops op reason found (.inr ⟨blockno, eq⟩)
      | ok _ =>
        simp only [Log.logWrite] at eq
        split at eq
        · cases eq
        rename_i room
        split at eq
        · cases eq
        · cases eq
          exact .writes op blockno bytes found (by omega) (by omega)
    exact outcome _ rfl
  | endOp _ =>
    obtain ⟨op, found, rfl⟩ := Option.map_eq_some_iff.mp ran
    obtain ⟨rfl, _⟩ := findOp_id found
    have outcome : ∀ res, s.log.endOp = res → LogStep s (.endOp op.id) (s.endOp op) := by
      intro res eq
      simp only [LogDisk.endOp, eq]
      cases res with
      | error reason => exact .stops op reason found (.inl eq)
      | ok _ =>
        simp only [Log.endOp] at eq
        split at eq
        · cases eq
        split at eq
        · rename_i last
          cases eq
          rw [last]
          exact .commits op found (by omega)
        · rename_i notLast
          cases eq
          exact .ends op found (by omega)
    exact outcome _ rfl
  | io => exact .io (io_cases ran)
  | evict b =>
    simp only [LogDisk.step] at ran
    split at ran
    · cases ran
    rename_i unpinned
    cases ran
    exact .evicts b unpinned
  | crash =>
    cases ran
    exact .crashes

/-- What no step of a commit or of a recovery changes. -/
theorem LogIo.frame (moved : LogIo s s') :
    s.pc ≠ .idle ∧ s'.log.outstanding = s.log.outstanding ∧ s'.ops = s.ops ∧
      s'.nextOp = s.nextOp := by
  refine ⟨?_, ?_⟩
  · intro _
    cases moved <;> simp_all
  · cases moved <;> exact ⟨rfl, rfl, rfl⟩

/-- The flag of the log follows the phase. -/
theorem LogIo.committing (moved : LogIo s s') (pre : s.log.committing = s.pc.committing) :
    s'.log.committing = s'.pc.committing := by
  have phase : ∀ {pc : LogPc}, s.pc = pc → s.log.committing = pc.committing := by
    rintro _ rfl
    exact pre
  cases moved with
  | nothing here => exact (phase here :)
  | something here => exact (phase here :)
  | copies _ _ here => exact (phase here :)
  | copied _ here => exact (phase here :)
  | commits here => exact (phase here :)
  | installs _ _ _ here => exact (phase here :)
  | installed _ _ here => exact (phase here :)
  | clears recovering here =>
    cases recovering with
    | false => exact (phase here :)
    | true => exact (phase here :)
  | ends => rfl
  | reads here => exact (phase here :)

/-! ### Operations and the phases of a commit -/

namespace LogDisk

/-- The counter and the flag of the log say what they are meant to say, and no
operation is going on outside the idle phase. -/
structure Control (s : LogDisk α) : Prop where
  counted : s.log.outstanding = s.ops.length
  committing : s.log.committing = s.pc.committing
  quiet : s.pc ≠ .idle → s.ops = []
  ids : (s.ops.map LogOp.id).Nodup
  bound : ∀ op ∈ s.ops, op.id < s.nextOp

@[simp] theorem updateOp_ids (s : LogDisk α) (id : Nat) {change : LogOp → LogOp}
    (keeps : ∀ op, (change op).id = op.id) :
    (s.updateOp id change).map LogOp.id = s.ops.map LogOp.id := by
  rw [updateOp, List.map_map]
  apply List.map_congr_left
  intro op _
  rw [comp_apply]
  split
  · exact keeps op
  · rfl

theorem mem_updateOp {id : Nat} {change : LogOp → LogOp} (mem : op ∈ s.updateOp id change) :
    ∃ pre ∈ s.ops, op = if pre.id = id then change pre else pre := by
  obtain ⟨pre, here, rfl⟩ := List.mem_map.mp mem
  exact ⟨pre, here, rfl⟩

theorem findOp_split (nodup : (s.ops.map LogOp.id).Nodup) (here : op ∈ s.ops) :
    ∃ front back, s.ops = front ++ op :: back ∧
      (∀ change, s.updateOp op.id change = front ++ change op :: back) ∧
      (s.ops.filter fun other => other.id ≠ op.id) = front ++ back := by
  obtain ⟨front, back, split⟩ := List.append_of_mem here
  have others : ∀ other ∈ front ++ back, other.id ≠ op.id := by
    rw [split, List.map_append, List.map_cons, List.nodup_middle, List.nodup_cons,
      ← List.map_append] at nodup
    intro other mem same
    exact nodup.1 (same ▸ List.mem_map_of_mem mem)
  have kept : ∀ (change : LogOp → LogOp) (part : List LogOp),
      (∀ other ∈ part, other ∈ front ++ back) →
      (part.map fun other => if other.id = op.id then change other else other) = part := by
    intro change _ within
    rw [List.map_congr_left, List.map_id]
    intro other mem
    exact if_neg (others other (within other mem))
  refine ⟨front, back, split, ?_, ?_⟩
  · intro change
    rw [updateOp, split, List.map_append, List.map_cons, if_pos rfl,
      kept change front fun _ mem => List.mem_append_left _ mem,
      kept change back fun _ mem => List.mem_append_right _ mem]
  · rw [split, List.filter_append, List.filter_cons_of_neg (by simp), ← List.filter_append,
      List.filter_eq_self]
    intro other mem
    simpa using others other mem

namespace Control

variable (control : s.Control)
include control

/-- An operation that calls `log_write` or `end_op` finds the log idle. -/
theorem idle_of_found (here : op ∈ s.ops) : s.pc = .idle := by
  by_contra busy
  rw [control.quiet busy] at here
  exact List.not_mem_nil here

/-- So does one that `begin_op` lets in. -/
theorem idle_of_admitted (started : s.pc.recovering = false)
    (admitted : s.log.mustWait = false) : s.pc = .idle := by
  rw [Log.mustWait, Bool.or_eq_false_iff, control.committing] at admitted
  generalize s.pc = pc at started admitted ⊢
  cases pc <;> simp_all [LogPc.recovering, LogPc.committing]

/-- An operation leaves the log idle for the others, or is the last one and
starts a commit. -/
theorem remove (here : op ∈ s.ops) :
    let ops := s.ops.filter fun other => other.id ≠ op.id
    s.log.outstanding - 1 = ops.length ∧ (ops.map LogOp.id).Nodup ∧
      ∀ other ∈ ops, other.id < s.nextOp := by
  obtain ⟨_, _, split, _, rest⟩ := findOp_split control.ids here
  refine ⟨?_, ?_, ?_⟩
  · rw [rest, control.counted, split]
    simp only [List.length_append, List.length_cons]
    omega
  · exact control.ids.sublist (List.filter_sublist.map _)
  · intro other mem
    exact control.bound other (List.mem_of_mem_filter mem)

/-- A change of one operation. -/
theorem change (here : op ∈ s.ops) {f : LogOp → LogOp} (keeps : ∀ op, (f op).id = op.id)
    (ops : s'.ops = s.updateOp op.id f) (nextOp : s'.nextOp = s.nextOp) (pc : s'.pc = s.pc)
    (outstanding : s'.log.outstanding = s.log.outstanding)
    (committing : s'.log.committing = s.log.committing) : s'.Control := by
  refine ⟨?_, ?_, ?_, ?_, ?_⟩
  · rw [outstanding, ops, control.counted, updateOp, List.length_map]
  · rw [committing, pc, control.committing]
  · intro busy
    exact absurd (control.idle_of_found here) (pc ▸ busy)
  · rw [ops, updateOp_ids s op.id keeps]
    exact control.ids
  intro other mem
  rw [ops] at mem
  have known : other.id ∈ s.ops.map LogOp.id := updateOp_ids s op.id keeps ▸ List.mem_map_of_mem mem
  obtain ⟨pre, within, same⟩ := List.mem_map.mp known
  rw [nextOp, ← same]
  exact control.bound pre within

/-- A step of a commit or of a recovery. -/
theorem io (moved : LogIo s s') : s'.Control := by
  obtain ⟨busy, outstanding, ops, nextOp⟩ := moved.frame
  refine ⟨?_, moved.committing control.committing, ?_, ?_, ?_⟩
  · rw [outstanding, ops]
    exact control.counted
  · intro _
    rw [ops]
    exact control.quiet busy
  · rw [ops]
    exact control.ids
  · rw [ops, nextOp]
    exact control.bound

theorem step (ran : s.step act = some s') : s'.Control := by
  cases logStep_cases ran with
  | begins _ started admitted =>
    have idle := control.idle_of_admitted started admitted
    refine ⟨?_, control.committing, fun busy => absurd idle busy, ?_, ?_⟩
    · simp only [beginOp, Log.beginOp, control.counted, List.length_cons]
      omega
    · simp only [beginOp, List.map_cons, List.nodup_cons]
      refine ⟨?_, control.ids⟩
      intro mem
      obtain ⟨op, here, _⟩ := List.mem_map.mp mem
      exact absurd (control.bound op here) (by omega)
    · intro op mem
      rcases List.mem_cons.mp mem with rfl | pre
      · exact Nat.lt_succ_self _
      · exact Nat.lt_succ_of_lt (control.bound op pre)
  | writes _ _ _ found =>
    refine control.change (findOp_id found).2 ?_ rfl rfl rfl rfl rfl
    exact fun _ => rfl
  | stops _ _ found =>
    refine control.change (findOp_id found).2 ?_ rfl rfl rfl rfl rfl
    exact fun _ => rfl
  | ends _ found =>
    have idle := control.idle_of_found (findOp_id found).2
    obtain ⟨counted, ids, bound⟩ := control.remove (findOp_id found).2
    exact ⟨counted, control.committing, fun busy => absurd idle busy, ids, bound⟩
  | commits _ found last =>
    obtain ⟨counted, ids, bound⟩ := control.remove (findOp_id found).2
    rw [last] at counted
    refine ⟨counted, rfl, fun _ => ?_, ids, bound⟩
    exact List.eq_nil_of_length_eq_zero (Int.ofNat_eq_zero.mp counted.symm)
  | io moved => exact control.io moved
  | evicts =>
    exact ⟨control.counted, control.committing, control.quiet, control.ids, control.bound⟩
  | crashes => exact ⟨rfl, rfl, fun _ => rfl, List.nodup_nil, nofun⟩

end Control

theorem boot_control (start : UInt32) (size : Int) (base : UInt32 → α) :
    (boot start size base).Control :=
  ⟨rfl, rfl, fun _ => rfl, List.nodup_nil, nofun⟩

end LogDisk

/-!
`begin_op` lets an operation in while the blocks in the log and `MAXOPBLOCKS` for every
operation are at most `LOGSIZE`.  But the log has one data block less, and `log_write` refuses
a block when they are all in use, even one that is in the log already: what can be logged
safely is `LOGSIZE - 2` blocks.
-/

namespace LogDisk

/-- The number of blocks that the operations may still log. -/
def remaining (s : LogDisk α) : Nat := (s.ops.map fun op => op.blocks - op.logged.length).sum

/-- An operation logs at most `MAXOPBLOCKS` distinct blocks, the bound it begins with. -/
def bounded (s : LogDisk α) : LogAction α → Bool
  | .beginOp blocks => blocks ≤ maxopblocks
  | .logWrite id blockno _ =>
    (s.findOp id).all fun op => (op.logged.insert blockno).length ≤ op.blocks
  | _ => true

/-- An operation begins only when what may be logged leaves two blocks of `LOGSIZE`. -/
def reserves (s : LogDisk α) : LogAction α → Bool
  | .beginOp blocks => s.log.lh.length + s.remaining + blocks ≤ logsize - 2
  | _ => true

/-! ### Headers -/

/-- No list of logged blocks, in memory or on disk, is longer than `limit`. -/
structure Fits (s : LogDisk α) (limit : Nat) : Prop where
  lh : s.log.lh.length ≤ limit
  disk : ∀ b, (s.disk b).blocks.length ≤ limit
  cache : ∀ b, (s.cache b).blocks.length ≤ limit

theorem blocks_update {sectors : UInt32 → Sector α} {limit : Nat} {sector : Sector α} (b : UInt32)
    (pre : ∀ b, (sectors b).blocks.length ≤ limit) (short : sector.blocks.length ≤ limit) :
    ∀ b', (update sectors b sector b').blocks.length ≤ limit := by
  intro b'
  by_cases same : b' = b
  · rw [same, update_self]
    exact short
  · rw [update_of_ne same]
    exact pre b'

namespace Fits

variable {limit : Nat}

/-- Change a buffer and write it. -/
theorem bwrite (fits : s.Fits limit) (b : UInt32) (sector : Sector α)
    (short : sector.blocks.length ≤ limit) : (s.bwrite b sector).Fits limit where
  lh := fits.lh
  disk := blocks_update b fits.disk short
  cache := blocks_update b fits.cache short

theorem io (fits : s.Fits limit) (moved : LogIo s s') : s'.Fits limit := by
  cases moved with
  | nothing => exact ⟨fits.lh, fits.disk, fits.cache⟩
  | something => exact ⟨fits.lh, fits.disk, fits.cache⟩
  | copies tail b =>
    have written := fits.bwrite (s.slot tail) (s.cache b) (fits.cache b)
    exact ⟨fits.lh, written.disk, written.cache⟩
  | copied => exact ⟨fits.lh, fits.disk, fits.cache⟩
  | commits =>
    have written := fits.bwrite s.start (.header s.log.lh) fits.lh
    exact ⟨fits.lh, written.disk, written.cache⟩
  | installs _ tail b =>
    have written := fits.bwrite b (s.cache (s.slot tail)) (fits.cache (s.slot tail))
    exact ⟨fits.lh, written.disk, written.cache⟩
  | installed => exact ⟨fits.lh, fits.disk, fits.cache⟩
  | clears =>
    have written := fits.bwrite s.start (.header []) (Nat.zero_le limit)
    exact ⟨Nat.zero_le limit, written.disk, written.cache⟩
  | ends => exact ⟨fits.lh, fits.disk, fits.cache⟩
  | reads => exact ⟨fits.cache s.start, fits.disk, fits.cache⟩

/-- A step that does not make the list in memory too long makes no other one
too long. -/
theorem step (fits : s.Fits limit) (ran : s.step act = some s')
    (lh : s'.log.lh.length ≤ limit) : s'.Fits limit := by
  cases logStep_cases ran with
  | begins => exact ⟨lh, fits.disk, fits.cache⟩
  | writes _ blockno =>
    exact ⟨lh, fits.disk, blocks_update blockno fits.cache (Nat.zero_le limit)⟩
  | stops => exact ⟨lh, fits.disk, fits.cache⟩
  | ends => exact ⟨lh, fits.disk, fits.cache⟩
  | commits => exact ⟨lh, fits.disk, fits.cache⟩
  | io moved => exact fits.io moved
  | evicts b => exact ⟨lh, fits.disk, blocks_update b fits.cache (fits.disk b)⟩
  | crashes => exact ⟨lh, fits.disk, fits.disk⟩

end Fits

theorem boot_fits (start : UInt32) (size : Int) (base : UInt32 → α) (limit : Nat) :
    (boot start size base).Fits limit := by
  have sectors : ∀ b, (image start base b).blocks.length ≤ limit := by
    apply blocks_update
    · exact fun _ => Nat.zero_le limit
    · exact Nat.zero_le limit
  exact ⟨Nat.zero_le limit, sectors, sectors⟩

/-! ### The reservation -/

/-- The invariant: the log and what may still come leave two blocks free. -/
structure Reserved (s : LogDisk α) : Prop where
  control : s.Control
  fits : s.Fits (logsize - 2)
  size : s.log.size = logsize
  logged : ∀ op ∈ s.ops, ∀ b ∈ op.logged, b ∈ s.log.lh
  space : s.log.lh.length + s.remaining ≤ logsize - 2
  calm : s.panicked = none

theorem remaining_split {front back : List LogOp} (split : s.ops = front ++ op :: back) :
    s.remaining = (front.map fun op => op.blocks - op.logged.length).sum +
      (op.blocks - op.logged.length) + (back.map fun op => op.blocks - op.logged.length).sum := by
  rw [remaining, split, List.map_append, List.map_cons, List.sum_append, List.sum_cons]
  omega

namespace Reserved

variable (reserved : s.Reserved)
include reserved

/-- No call of an operation panics. -/
theorem no_panic {reason : Panic} (here : op ∈ s.ops)
    (cause : s.log.endOp = .error reason ∨ ∃ blockno, s.log.logWrite blockno = .error reason) :
    False := by
  have idle := reserved.control.idle_of_found here
  have some : 0 < s.ops.length := List.length_pos_of_mem here
  have counted := reserved.control.counted
  have committing : s.log.committing = false := by
    rw [reserved.control.committing, idle]
    rfl
  have space := reserved.space
  rcases cause with ended | ⟨_, wrote⟩
  · rw [Log.endOp, committing, if_neg Bool.false_ne_true] at ended
    split at ended <;> cases ended
  rw [Log.logWrite, if_neg, if_neg] at wrote
  · cases wrote
  · omega
  rw [reserved.size]
  have limit : logsize = 30 := rfl
  omega

/-- An operation logs a block within its bound. -/
theorem writes (blockno : UInt32) (here : op ∈ s.ops)
    (within : (op.logged.insert blockno).length ≤ op.blocks) :
    let lh := if blockno ∈ s.log.lh then s.log.lh else s.log.lh ++ [blockno]
    let ops := s.updateOp op.id fun op => { op with logged := op.logged.insert blockno }
    lh.length + (ops.map fun op => op.blocks - op.logged.length).sum ≤ logsize - 2 ∧
      ∀ op ∈ ops, ∀ b ∈ op.logged, b ∈ lh := by
  intro lh ops
  obtain ⟨_, _, split, updated, _⟩ := findOp_split reserved.control.ids here
  have space := reserved.space
  rw [remaining_split split] at space
  have kept : ∀ b ∈ s.log.lh, b ∈ lh := by
    intro b mem
    simp only [lh]
    split <;> simp [mem]
  have added : blockno ∈ lh := by
    simp only [lh]
    split
    · assumption
    · simp
  constructor
  · simp only [ops, updated, List.map_append, List.map_cons, List.sum_append, List.sum_cons, lh]
    by_cases known : blockno ∈ s.log.lh
    · -- absorbed: the operation has at most as much left as before
      have grown : op.logged.length ≤ (op.logged.insert blockno).length := by
        by_cases old : blockno ∈ op.logged
        · rw [List.insert_of_mem old]
        · rw [List.length_insert_of_not_mem old]
          omega
      rw [if_pos known]
      omega
    -- a new block of the log is new to the operation too
    have new : blockno ∉ op.logged := fun mem => known (reserved.logged op here _ mem)
    rw [List.length_insert_of_not_mem new] at within ⊢
    rw [if_neg known, List.length_append, List.length_singleton]
    omega
  intro _ mem b logged
  obtain ⟨pre, within, rfl⟩ := mem_updateOp mem
  split at logged
  · rcases List.mem_insert_iff.mp logged with rfl | old
    · exact added
    · exact kept b (reserved.logged pre within b old)
  · exact kept b (reserved.logged pre within b logged)

/-- An operation ends. -/
theorem drops (control : s'.Control) (fits : s'.Fits (logsize - 2)) (here : op ∈ s.ops)
    (ops : s'.ops = s.ops.filter fun other => other.id ≠ op.id) (lh : s'.log.lh = s.log.lh)
    (size : s'.log.size = logsize) (calm : s'.panicked = none) : s'.Reserved := by
  obtain ⟨_, _, split, _, rest⟩ := findOp_split reserved.control.ids here
  refine ⟨control, fits, size, ?_, ?_, calm⟩
  · intro other mem b logged
    rw [ops] at mem
    rw [lh]
    exact reserved.logged other (List.mem_of_mem_filter mem) b logged
  · have space := reserved.space
    rw [remaining_split split] at space
    rw [remaining, ops, rest, lh, List.map_append, List.sum_append]
    omega

/-- A step of a commit or of a recovery, during which there are no operations. -/
theorem io (moved : LogIo s s') : s'.Reserved := by
  have fits := reserved.fits.io moved
  obtain ⟨busy, _, ops, _⟩ := moved.frame
  have none : s'.ops = [] := ops.trans (reserved.control.quiet busy)
  refine ⟨reserved.control.io moved, fits, ?_, ?_, ?_, ?_⟩
  · cases moved <;> exact reserved.size
  · intro _ mem
    rw [none] at mem
    exact absurd mem List.not_mem_nil
  · rw [remaining, none]
    exact fits.lh
  · cases moved <;> exact reserved.calm

theorem step (bounded : s.bounded act) (reserves : s.reserves act)
    (ran : s.step act = some s') : s'.Reserved := by
  have control := reserved.control.step ran
  have fits := reserved.fits.step ran
  cases logStep_cases ran with
  | begins blocks =>
    have space : s.log.lh.length + s.remaining + blocks ≤ logsize - 2 := of_decide_eq_true reserves
    refine ⟨control, fits reserved.fits.lh, reserved.size, ?_, ?_, reserved.calm⟩
    · intro op mem b logged
      rcases List.mem_cons.mp mem with rfl | pre
      · cases logged
      · exact reserved.logged op pre b logged
    · simp only [remaining, beginOp, Log.beginOp, List.map_cons, List.sum_cons,
        List.length_nil] at space ⊢
      omega
  | writes op blockno _ found =>
    have within : (op.logged.insert blockno).length ≤ op.blocks := by
      simpa [LogDisk.bounded, found] using bounded
    obtain ⟨space, logged⟩ := reserved.writes blockno (findOp_id found).2 within
    have short := fits (Nat.le_of_add_right_le space)
    exact ⟨control, short, reserved.size, logged, space, reserved.calm⟩
  | stops _ _ found cause => exact (reserved.no_panic (findOp_id found).2 cause).elim
  | ends _ found =>
    exact reserved.drops control (fits reserved.fits.lh) (findOp_id found).2 rfl rfl reserved.size
      reserved.calm
  | commits _ found =>
    exact reserved.drops control (fits reserved.fits.lh) (findOp_id found).2 rfl rfl reserved.size
      reserved.calm
  | io moved => exact reserved.io moved
  | evicts =>
    exact ⟨control, fits reserved.fits.lh, reserved.size, reserved.logged, reserved.space,
      reserved.calm⟩
  | crashes =>
    exact ⟨control, fits (Nat.zero_le _), reserved.size,
      fun _ mem => absurd mem List.not_mem_nil, Nat.zero_le _, rfl⟩

end Reserved

theorem boot_reserved (start : UInt32) (base : UInt32 → α) :
    (boot start logsize base).Reserved where
  control := boot_control start logsize base
  fits := boot_fits start logsize base _
  size := rfl
  logged := fun _ mem => absurd mem List.not_mem_nil
  space := Nat.zero_le _
  calm := rfl

/-- Without any condition, the log in memory never outgrows the data blocks:
`log_write` panics first. -/
theorem Fits.step_data (fits : s.Fits (logsize - 1))
    (size : s.log.size = logsize) (ran : s.step act = some s') :
    s'.Fits (logsize - 1) ∧ s'.log.size = logsize := by
  have next := fits.step ran
  cases logStep_cases ran with
  | begins _ _ _ => exact ⟨next fits.lh, size⟩
  | writes op blockno _ found _ _ =>
    refine ⟨next ?_, size⟩
    by_cases known : blockno ∈ s.log.lh
    · simp only [if_pos known]
      exact fits.lh
    have limit : logsize = 30 := rfl
    simp only [if_neg known, List.length_append, List.length_singleton]
    omega
  | stops op _ found _ => exact ⟨next fits.lh, size⟩
  | ends op found _ => exact ⟨next fits.lh, size⟩
  | commits _ _ _ => exact ⟨next fits.lh, size⟩
  | io moved =>
    refine ⟨fits.io moved, ?_⟩
    cases moved <;> exact size
  | evicts b _ => exact ⟨next fits.lh, size⟩
  | crashes => exact ⟨next (Nat.zero_le _), size⟩

end LogDisk

/-- With the geometry of `mkfs`, the log holds at most its data blocks, and no `log_write`
panics if every operation keeps to its bound and begins only when the bounds leave two blocks
of `LOGSIZE`. -/
theorem log_space (start : UInt32) (base : UInt32 → α) :
    (∀ s, Run LogDisk.step (fun _ _ => True) (LogDisk.boot start logsize base) s →
      (s.log.lh.length : Int) ≤ s.log.size - 1) ∧
    (∀ s, Run LogDisk.step (fun s act => s.bounded act ∧ s.reserves act)
        (LogDisk.boot start logsize base) s → s.panicked = none) := by
  constructor
  · intro s run
    have fits : s.Fits (logsize - 1) ∧ s.log.size = logsize := by
      apply run.invariant (P := fun s => s.Fits (logsize - 1) ∧ s.log.size = (logsize : Int))
        ⟨LogDisk.boot_fits start logsize base _, rfl⟩
      intro s act s' pre _ ran
      exact pre.1.step_data pre.2 ran
    have short := fits.1.lh
    have limit : logsize = 30 := rfl
    omega
  · intro s run
    refine (run.invariant (P := LogDisk.Reserved) (LogDisk.boot_reserved start base) ?_).calm
    intro s _ _ reserved condition ran
    exact reserved.step condition.1 condition.2 ran

/-- The end of `initlog`, the beginning of operations and their writes of distinct blocks. -/
def logBlocks (bounds : List Nat) : List (LogAction Unit) :=
  [.io, .io, .io] ++ bounds.map .beginOp ++
    (List.range bounds.length).flatMap fun op =>
      (List.range (bounds.getD op 0)).map fun i =>
        .logWrite op (UInt32.ofNat (100 + maxopblocks * op + i)) ()

/-- Three operations that log 28 blocks between them. -/
theorem log_space_three :
    ∃ s, Run LogDisk.step (fun s act => s.bounded act ∧ s.reserves act)
        (LogDisk.boot 2 logsize fun _ => ()) s ∧ s.log.lh.length = 28 ∧ s.panicked = none := by
  obtain ⟨s, run, full⟩ := exists_run_of_runChecked LogDisk.step
    (fun s act => s.bounded act ∧ s.reserves act) (LogDisk.boot 2 logsize fun _ => ())
    (logBlocks [9, 9, 10]) (P := fun s => s.log.lh.length = 28) (by decide +kernel)
  exact ⟨s, run, full, (log_space 2 fun _ => ()).2 s run⟩

/-- Three operations of `MAXOPBLOCKS` blocks each are let in, and the last of
their thirty blocks is refused. -/
theorem reservation_too_small :
    ∃ s, Run LogDisk.step (fun s act => s.bounded act) (LogDisk.boot 2 logsize fun _ => ()) s ∧
      s.panicked = some .bigTransaction :=
  exists_run_of_runChecked LogDisk.step (fun s act => s.bounded act) (LogDisk.boot 2 logsize fun _ => ())
    (logBlocks [maxopblocks, maxopblocks, maxopblocks])
    (P := fun s => s.panicked = some .bigTransaction) (by decide +kernel)

end CustomXv6

/-
Module: CustomXv6.Kernel.CrashSafety
Purpose: Crash atomicity of the log, for crashes in operations, commits and recovery.
Trusted boundary: human-reviewed spec
Main exports: LogDisk.Safe, crash_atomicity
-/
import CustomXv6.Kernel.Log

namespace CustomXv6

open Transition RedoLog
open Function

variable {α : Type*}

namespace LogDisk

/-- The operations modify no block of the log itself. -/
def writesHome (s : LogDisk α) : LogAction α → Bool
  | .logWrite _ blockno _ => !decide (s.inLog blockno)
  | _ => true

/-- The changes of the disk that a group of writes stands for. -/
def entries (group : List (LogWrite α)) : List (UInt32 × Sector α) := group.map LogWrite.entry

/-- The contents after the committed groups. -/
def target (base : UInt32 → α) (s : LogDisk α) : UInt32 → Sector α :=
  contents (s.commits.map entries) fun b => .data (base b)

/-! ### The blocks of the log -/

variable {i : Nat} {act : LogAction α} {op : LogOp}

theorem slot_sub_start (s : LogDisk α) (small : i < logsize) :
    (s.slot i - s.start).toNat = i + 1 := by
  have offset : s.slot i - s.start = UInt32.ofNat (i + 1) := by
    rw [slot, UInt32.ofNat_add]
    grind
  have limit : logsize = 30 := rfl
  rw [offset, UInt32.toNat_ofNat_of_lt']
  have words : UInt32.size = 4294967296 := rfl
  omega

theorem slot_injective (s : LogDisk α) {j : Nat} (small : i < logsize) (small' : j < logsize)
    (same : s.slot i = s.slot j) : i = j := by
  have offset := s.slot_sub_start small
  rw [same, s.slot_sub_start small'] at offset
  omega

theorem slot_ne_start (s : LogDisk α) (small : i < logsize) : s.slot i ≠ s.start := by
  intro same
  have offset := s.slot_sub_start small
  rw [same, UInt32.sub_self] at offset
  cases offset

/-- A list of blocks has room in the log and in a header. -/
def room (s : LogDisk α) (lh : List UInt32) : Prop :=
  lh.length ≤ logsize ∧ (lh.length : Int) ≤ s.log.size - 1

theorem slot_not_home {s : LogDisk α} {lh : List UInt32} (room : s.room lh)
    (below : i < lh.length) : ¬ s.home (s.slot i) := by
  obtain ⟨short, _⟩ := room
  have offset := s.slot_sub_start (Nat.lt_of_lt_of_le below short)
  rw [home, Classical.not_not, inLog, offset]
  omega

theorem start_not_home {s : LogDisk α} (some : 0 < s.log.size) : ¬ s.home s.start := by
  rw [home, Classical.not_not, inLog, UInt32.sub_self, UInt32.toNat_zero]
  omega

/-! ### What is on the disk in each phase -/

/-- Before the commit point: the home blocks hold the committed contents, the
cache also what the operations have written since, and all blocks written are
in the log and pinned. -/
structure Open (base : UInt32 → α) (s : LogDisk α) : Prop where
  head : s.disk s.start = .header []
  clean : ∀ b, s.home b → s.disk b = s.target base b
  cached : ∀ b, s.home b → s.cache b = applyWrites (entries s.group) (s.target base) b
  pinned : s.pinned = s.log.lh
  named : ∀ b, b ∈ (entries s.group).map Prod.fst → b ∈ s.log.lh
  homes : ∀ b ∈ s.log.lh, s.home b
  room : s.room s.log.lh

/-- The first `tail` blocks have been copied to the log. -/
def Copied (s : LogDisk α) (tail : Nat) : Prop :=
  ∀ i b, i < tail → s.log.lh[i]? = some b → s.disk (s.slot i) = s.cache b

/-- After the commit point and until the header is cleared. -/
structure Installing (base : UInt32 → α) (s : LogDisk α) (recovering : Bool) (tail : Nat) : Prop where
  head : s.disk s.start = .header s.log.lh
  recoverable : Recoverable s.home s.slot s.log.lh s.disk (s.target base)
  installed : Installed s.log.lh tail s.disk (s.target base)
  pinned : s.pinned = if recovering then [] else s.log.lh.drop tail
  group : s.group = []
  room : s.room s.log.lh

structure Crashed (base : UInt32 → α) (s : LogDisk α) : Prop where
  disk : ∃ head, s.disk s.start = .header head ∧ s.room head ∧
    Recoverable s.home s.slot head s.disk (s.target base)
  pinned : s.pinned = []
  group : s.group = []

def Phase (base : UInt32 → α) (s : LogDisk α) : LogPc → Prop
  | .idle => s.Open base
  | .commit => s.Open base
  | .writeLog tail => s.Open base ∧ s.Copied tail
  | .writeHead => s.Open base ∧ s.Copied s.log.lh.length
  | .installTrans recovering tail => s.Installing base recovering tail
  | .clearHead recovering => s.Installing base recovering s.log.lh.length
  | .committed => s.Open base
  | .readHead => s.Crashed base

structure Safe (base : UInt32 → α) (s : LogDisk α) : Prop where
  control : s.Control
  size : 0 < s.log.size
  unpinned : ∀ b, b ∉ s.pinned → s.cache b = s.disk b
  phase : s.Phase base s.pc

variable {base : UInt32 → α} {s s' : LogDisk α}

/-- What `Open` says is about the log, the disk, the cache and the groups. -/
theorem Open.congr (opened : s.Open base) (start : s'.start = s.start)
    (size : s'.log.size = s.log.size) (lh : s'.log.lh = s.log.lh) (disk : s'.disk = s.disk)
    (cache : s'.cache = s.cache) (pinned : s'.pinned = s.pinned) (group : s'.group = s.group)
    (commits : s'.commits = s.commits) : s'.Open base := by
  have home : s'.home = s.home := by
    funext b
    simp only [LogDisk.home, inLog, start, size]
  have target : s'.target base = s.target base := by simp only [LogDisk.target, commits]
  refine ⟨?_, ?_, ?_, ?_, ?_, ?_, ?_⟩
  · rw [disk, start]
    exact opened.head
  · rw [disk, home, target]
    exact opened.clean
  · rw [cache, home, target, group]
    exact opened.cached
  · rw [pinned, lh]
    exact opened.pinned
  · rw [group, lh]
    exact opened.named
  · rw [lh, home]
    exact opened.homes
  · rw [LogDisk.room, lh, size]
    exact opened.room

/-- At any moment the committed contents can be recovered from the disk. -/
theorem Phase.recoverable {pc : LogPc} (phase : s.Phase base pc) :
    ∃ head, s.disk s.start = .header head ∧ s.room head ∧
      Recoverable s.home s.slot head s.disk (s.target base) := by
  have fromOpen : s.Open base → ∃ head, s.disk s.start = .header head ∧ s.room head ∧
      Recoverable s.home s.slot head s.disk (s.target base) := by
    intro opened
    refine ⟨[], opened.head, ⟨Nat.zero_le _, ?_⟩, .clean opened.clean⟩
    have fits := opened.room.2
    simp only [List.length_nil]
    omega
  cases pc with
  | idle => exact fromOpen phase
  | commit => exact fromOpen phase
  | writeLog => exact fromOpen phase.1
  | writeHead => exact fromOpen phase.1
  | installTrans recovering tail =>
    have installing : s.Installing base recovering tail := phase
    exact ⟨s.log.lh, installing.head, installing.room, installing.recoverable⟩
  | clearHead recovering =>
    have installing : s.Installing base recovering s.log.lh.length := phase
    exact ⟨s.log.lh, installing.head, installing.room, installing.recoverable⟩
  | committed => exact fromOpen phase
  | readHead =>
    have crashed : s.Crashed base := phase
    exact crashed.disk

/-! ### The steps -/

namespace Safe

/-- `log_write`: the new contents are in the cache, and pinned. -/
theorem writes (safe : s.Safe base) {blockno : UInt32} {bytes : α}
    (found : s.findOp op.id = some op) (isHome : s.home blockno)
    (room : s.log.lh.length < logsize) (fits : (s.log.lh.length : Int) < s.log.size - 1)
    (logged : s' =
      { s with
        log := { s.log with lh := if blockno ∈ s.log.lh then s.log.lh else s.log.lh ++ [blockno] }
        cache := update s.cache blockno (.data bytes)
        pinned := if blockno ∈ s.log.lh then s.pinned else s.pinned ++ [blockno]
        ops := s.updateOp op.id fun op => { op with logged := op.logged.insert blockno }
        group := { op := op.id, blockno := blockno, bytes := bytes } :: s.group
        trace := { op := op.id, blockno := blockno, bytes := bytes } :: s.trace }) :
    s'.Open base ∧ ∀ b, b ∉ s'.pinned → s'.cache b = s'.disk b := by
  have idle := safe.control.idle_of_found (findOp_id found).2
  have opened : s.Open base := by simpa [idle, Phase] using safe.phase
  have lh' : s'.log.lh = if blockno ∈ s.log.lh then s.log.lh else s.log.lh ++ [blockno] := by
    rw [logged]
  have mem : ∀ b, b ∈ s'.log.lh ↔ b ∈ s.log.lh ∨ b = blockno := by
    intro b
    rw [lh']
    split_ifs with known
    · constructor
      · exact .inl
      rintro (old | rfl)
      · exact old
      · exact known
    · simp
  have pinned : s'.pinned = s'.log.lh := by
    rw [lh', logged]
    simp only [opened.pinned]
  have cached : ∀ b, s'.cache b = if b = blockno then .data bytes else s.cache b := by
    intro b
    rw [logged, ← update_apply]
  constructor
  · refine ⟨?_, ?_, ?_, pinned, ?_, ?_, ?_⟩
    · rw [logged]
      exact opened.head
    · rw [logged]
      exact opened.clean
    · intro b home
      rw [logged] at home
      have pre : s.cache b = applyWrites (entries s.group) (s.target base) b := opened.cached b home
      rw [cached, pre, logged]
      exact (update_apply _ _ _ _).symm
    · intro b wrote
      rw [logged] at wrote
      rcases List.mem_cons.mp wrote with rfl | old
      · exact (mem _).mpr (.inr rfl)
      · exact (mem _).mpr (.inl (opened.named b old))
    · intro b within
      have home : s.home b := by
        rcases (mem b).mp within with old | rfl
        · exact opened.homes b old
        · exact isHome
      rw [logged]
      exact home
    have length : s'.log.lh.length ≤ s.log.lh.length + 1 := by
      rw [lh']
      split <;> simp
    have size : s'.log.size = s.log.size := by rw [logged]
    refine ⟨by omega, ?_⟩
    omega
  · intro b free
    rw [pinned, mem, not_or] at free
    rw [cached, if_neg free.2, logged]
    exact safe.unpinned b (opened.pinned ▸ free.1)

/-- A buffer that is changed and written is in the cache as on the disk. -/
theorem unpinned_bwrite (unpinned : ∀ b, b ∉ s.pinned → s.cache b = s.disk b) (x : UInt32)
    (sector : Sector α) :
    ∀ b, b ∉ s.pinned ∨ b = x → (s.bwrite x sector).cache b = (s.bwrite x sector).disk b := by
  intro b free
  simp only [bwrite, update_apply]
  split_ifs with other
  · rfl
  · exact unpinned b (free.resolve_right other)

variable (safe : s.Safe base)
include safe

variable {b : UInt32} {tail : Nat} {recovering : Bool}

/-- `write_log` copies one more block. -/
theorem copies (here : s.pc = .writeLog tail) (named : s.log.lh[tail]? = some b) :
    { s.bwrite (s.slot tail) (s.cache b) with pc := .writeLog (tail + 1) }.Safe base := by
  have phase : s.Phase base (.writeLog tail) := here ▸ safe.phase
  obtain ⟨opened, copied⟩ := phase
  have below : tail < s.log.lh.length := (List.getElem?_eq_some_iff.mp named).1
  have small : ∀ {i : Nat}, i < s.log.lh.length → i < logsize := fun lt =>
    Nat.lt_of_lt_of_le lt opened.room.1
  have apart : ∀ {b' : UInt32}, s.home b' → b' ≠ s.slot tail := by
    rintro _ isHome rfl
    exact slot_not_home opened.room below isHome
  refine ⟨safe.control.io (.copies tail b here named), safe.size, ?_, ?_, ?_⟩
  · intro b' free
    exact unpinned_bwrite safe.unpinned _ _ b' (.inl free)
  · refine ⟨?_, ?_, ?_, opened.pinned, opened.named, opened.homes, opened.room⟩
    · exact (update_of_ne (s.slot_ne_start (small below)).symm _ _).trans opened.head
    · intro b' isHome
      exact (update_of_ne (apart isHome) _ _).trans (opened.clean b' isHome)
    · intro b' isHome
      exact (update_of_ne (apart isHome) _ _).trans (opened.cached b' isHome)
  intro i b' _ named'
  have lt : i < s.log.lh.length := (List.getElem?_eq_some_iff.mp named').1
  have isHome : s.home b' := opened.homes b' (List.mem_of_getElem? named')
  have src : (s.bwrite (s.slot tail) (s.cache b)).cache b' = s.cache b' :=
    update_of_ne (apart isHome) _ _
  refine Eq.trans ?_ src.symm
  by_cases last : i = tail
  · subst last
    cases named.symm.trans named'
    exact update_self _ _ _
  · have other : s.slot i ≠ s.slot tail := fun same =>
      last (s.slot_injective (small lt) (small below) same)
    exact (update_of_ne other _ _).trans (copied i b' (by omega) named')

/-- The header is written: the group is committed. -/
theorem commits (here : s.pc = .writeHead) :
    { s.writeHead with
      pc := .installTrans false 0
      group := []
      commits := s.group :: s.commits }.Safe base := by
  have phase : s.Phase base .writeHead := here ▸ safe.phase
  obtain ⟨opened, copied⟩ := phase
  have committed : Recoverable s.home s.slot s.log.lh s.disk
      (applyWrites (entries s.group) (s.target base)) := by
    refine (Recoverable.clean opened.clean).commit opened.homes
      (fun i below => slot_not_home opened.room below) opened.named ?_
    intro i b named
    rw [copied i b (List.getElem?_eq_some_iff.mp named).1 named]
    exact opened.cached b (opened.homes b (List.mem_of_getElem? named))
  refine ⟨safe.control.io (.commits here), safe.size, ?_, ?_, ?_, installed_zero, ?_, rfl,
    opened.room⟩
  · intro b free
    exact unpinned_bwrite safe.unpinned _ _ b (.inl free)
  · exact update_self _ _ _
  · refine committed.write_apart (.header s.log.lh) (start_not_home safe.size) ?_
    intro i below
    exact s.slot_ne_start (Nat.lt_of_lt_of_le below opened.room.1)
  · exact opened.pinned

/-- `install_trans` copies one more block to its home. -/
theorem installs (here : s.pc = .installTrans recovering tail) (named : s.log.lh[tail]? = some b) :
    { s.bwrite b (s.cache (s.slot tail)) with
      pc := .installTrans recovering (tail + 1)
      pinned := if recovering then s.pinned else s.pinned.erase b }.Safe base := by
  have installing : s.Installing base recovering tail := by
    have phase := safe.phase
    rwa [here] at phase
  obtain ⟨below, element⟩ := List.getElem?_eq_some_iff.mp named
  have isHome : s.home b := installing.recoverable.homes b (List.mem_of_getElem? named)
  have pins : s.log.lh.drop tail = b :: s.log.lh.drop (tail + 1) := by
    rw [List.drop_eq_getElem_cons below, element]
  have copy : s.cache (s.slot tail) = s.disk (s.slot tail) := by
    apply safe.unpinned
    intro pinned
    rw [installing.pinned] at pinned
    have within : s.slot tail ∈ s.log.lh := by
      split at pinned
      · exact absurd pinned List.not_mem_nil
      · exact List.mem_of_mem_drop pinned
    exact slot_not_home installing.room below (installing.recoverable.homes _ within)
  rw [copy]
  refine ⟨copy ▸ safe.control.io (.installs recovering tail b here named), safe.size, ?_, ?_,
    installing.recoverable.install named, installing.recoverable.installed_succ named
      installing.installed, ?_, installing.group, installing.room⟩
  · intro b' free
    refine unpinned_bwrite safe.unpinned b _ b' ?_
    by_cases same : b' = b
    · exact .inr same
    left
    intro pinned
    apply free
    split
    · exact pinned
    · exact (List.mem_erase_of_ne same).mpr pinned
  · have other : s.start ≠ b := by
      rintro rfl
      exact start_not_home safe.size isHome
    exact (update_of_ne other _ _).trans installing.head
  simp only [installing.pinned]
  cases recovering with
  | true => rfl
  | false =>
    simp only [Bool.false_eq_true, if_false, pins, List.erase_cons_head]
    rfl

/-- The header is cleared: all committed contents are at home. -/
theorem clears (here : s.pc = .clearHead recovering) :
    { { s with log := { s.log with lh := [] } }.writeHead with
      pc := if recovering then .idle else .committed }.Safe base := by
  have installing : s.Installing base recovering s.log.lh.length := by
    have phase := safe.phase
    rwa [here] at phase
  have free : s.pinned = [] := by
    rw [installing.pinned, List.drop_length, ite_self]
  have apart : ∀ {b : UInt32}, s.home b → b ≠ s.start := by
    rintro _ isHome rfl
    exact start_not_home safe.size isHome
  have inPlace : ∀ b, s.home b → s.disk b = s.target base b := fun b isHome =>
    installing.recoverable.installed installing.installed isHome
  have opened : { { s with log := { s.log with lh := [] } }.writeHead with
      pc := if recovering then .idle else .committed }.Open base := by
    refine ⟨update_self _ _ _, ?_, ?_, free, ?_, ?_, ⟨Nat.zero_le _, ?_⟩⟩
    · intro b isHome
      exact (update_of_ne (apart isHome) _ _).trans (inPlace b isHome)
    · intro b isHome
      have cached : s.cache b = s.disk b := safe.unpinned b (free ▸ List.not_mem_nil)
      have nothing : entries s.group = [] := by
        rw [installing.group]
        rfl
      refine ((update_of_ne (apart isHome) _ _).trans (cached.trans (inPlace b isHome))).trans ?_
      exact (congrFun (congrArg (applyWrites · (s.target base)) nothing) b).symm
    · intro b wrote
      have nothing : s.group = [] := installing.group
      simp only [writeHead, bwrite, nothing] at wrote
      exact absurd wrote List.not_mem_nil
    · exact fun b mem => absurd mem List.not_mem_nil
    · have size := safe.size
      simp only [writeHead, bwrite, List.length_nil]
      omega
  refine ⟨safe.control.io (.clears recovering here), safe.size, ?_, ?_⟩
  · intro b unpinned
    exact unpinned_bwrite safe.unpinned _ _ b (.inl unpinned)
  · cases recovering <;> exact opened

/-- A crash loses the memory and nothing else. -/
theorem crashes : s.crash.Safe base where
  control := ⟨rfl, rfl, fun _ => rfl, List.nodup_nil, fun _ mem => absurd mem List.not_mem_nil⟩
  size := safe.size
  unpinned := fun _ _ => rfl
  phase := ⟨safe.phase.recoverable, rfl, rfl⟩

/-- `read_head` finds the header. -/
theorem reads (here : s.pc = .readHead) :
    { s with
      log := { s.log with lh := (s.cache s.start).blocks }
      pc := .installTrans true 0 }.Safe base := by
  have crashed : s.Crashed base := by
    have phase := safe.phase
    rwa [here] at phase
  obtain ⟨head, wrote, room, recoverable⟩ := crashed.disk
  have found : (s.cache s.start).blocks = head := by
    rw [safe.unpinned s.start (crashed.pinned ▸ List.not_mem_nil), wrote]
    rfl
  refine ⟨safe.control.io (.reads here), safe.size, safe.unpinned, ?_⟩
  rw [found]
  exact ⟨wrote, recoverable, installed_zero, crashed.pinned, crashed.group, room⟩

theorem io (moved : LogIo s s') : s'.Safe base := by
  have control := safe.control.io moved
  have phase : ∀ {pc : LogPc}, s.pc = pc → s.Phase base pc := by
    rintro _ rfl
    exact safe.phase
  cases moved with
  | nothing here =>
    have opened : s.Open base := phase here
    refine ⟨control, safe.size, safe.unpinned, ?_⟩
    exact opened.congr rfl rfl rfl rfl rfl rfl rfl rfl
  | something here =>
    have opened : s.Open base := phase here
    refine ⟨control, safe.size, safe.unpinned, ?_, fun _ _ below => absurd below (Nat.not_lt_zero _)⟩
    exact opened.congr rfl rfl rfl rfl rfl rfl rfl rfl
  | copies _ _ here named => exact safe.copies here named
  | copied _ here past =>
    obtain ⟨opened, copied⟩ := phase here
    refine ⟨control, safe.size, safe.unpinned, ?_, ?_⟩
    · exact opened.congr rfl rfl rfl rfl rfl rfl rfl rfl
    · intro i b below named
      exact copied i b (Nat.lt_of_lt_of_le below past) named
  | commits here => exact safe.commits here
  | installs _ _ _ here named => exact safe.installs here named
  | installed recovering tail here past =>
    have installing : s.Installing base recovering tail := phase here
    refine ⟨control, safe.size, safe.unpinned, installing.head, installing.recoverable, ?_, ?_,
      installing.group, installing.room⟩
    · intro i b below named
      exact installing.installed i b (Nat.lt_of_lt_of_le below past) named
    · simp only [installing.pinned, List.drop_length, List.drop_of_length_le past]
  | clears _ here => exact safe.clears here
  | ends here =>
    have opened : s.Open base := phase here
    refine ⟨control, safe.size, safe.unpinned, ?_⟩
    exact opened.congr rfl rfl rfl rfl rfl rfl rfl rfl
  | reads here => exact safe.reads here

/-- A step of an operation that does not touch the disk or the cache. -/
theorem calls (control : s'.Control) (idle : s.pc = .idle) (pc : s'.pc = .idle ∨ s'.pc = .commit)
    (start : s'.start = s.start) (size : s'.log.size = s.log.size) (lh : s'.log.lh = s.log.lh)
    (disk : s'.disk = s.disk) (cache : s'.cache = s.cache) (pinned : s'.pinned = s.pinned)
    (group : s'.group = s.group) (commits : s'.commits = s.commits) : s'.Safe base := by
  have opened : s.Open base := by
    have phase := safe.phase
    rwa [idle] at phase
  have after : s'.Open base := opened.congr start size lh disk cache pinned group commits
  refine ⟨control, size ▸ safe.size, ?_, ?_⟩
  · rw [pinned, cache, disk]
    exact safe.unpinned
  · rcases pc with here | here <;>
    · rw [here]
      exact after

theorem step (writesHome : s.writesHome act) (ran : s.step act = some s') : s'.Safe base := by
  have control := safe.control.step ran
  cases logStep_cases ran with
  | begins _ started admitted =>
    have idle := safe.control.idle_of_admitted started admitted
    exact safe.calls control idle (.inl idle) rfl rfl rfl rfl rfl rfl rfl rfl
  | writes _ blockno _ found room fits =>
    have isHome : s.home blockno := by simpa [LogDisk.writesHome, home] using writesHome
    obtain ⟨opened, unpinned⟩ := safe.writes found isHome room fits rfl
    have idle := safe.control.idle_of_found (findOp_id found).2
    have phase : Phase base _ .idle := opened
    exact ⟨control, safe.size, unpinned, idle ▸ phase⟩
  | stops _ _ found =>
    have idle := safe.control.idle_of_found (findOp_id found).2
    exact safe.calls control idle (.inl idle) rfl rfl rfl rfl rfl rfl rfl rfl
  | ends _ found =>
    have idle := safe.control.idle_of_found (findOp_id found).2
    exact safe.calls control idle (.inl idle) rfl rfl rfl rfl rfl rfl rfl rfl
  | commits _ found =>
    have idle := safe.control.idle_of_found (findOp_id found).2
    exact safe.calls control idle (.inr rfl) rfl rfl rfl rfl rfl rfl rfl rfl
  | io moved => exact safe.io moved
  | evicts b unpinned =>
    have same : update s.cache b (s.disk b) = s.cache := by
      rw [← safe.unpinned b unpinned, update_eq_self]
    simp only [same]
    exact safe
  | crashes => exact safe.crashes

end Safe

theorem boot_safe (start : UInt32) {size : Int} (some : 0 < size) (base : UInt32 → α) :
    (boot start size base).Safe base := by
  refine ⟨boot_control start size base, some, fun _ _ => rfl, ⟨[], ?_, ⟨Nat.zero_le _, ?_⟩, ?_⟩,
    rfl, rfl⟩
  · exact update_self start (.header []) fun b => Sector.data (base b)
  · simp only [boot, List.length_nil]
    omega
  apply Recoverable.clean
  intro b isHome
  have other : b ≠ start := by
    rintro rfl
    exact start_not_home (s := boot b size base) some isHome
  exact update_of_ne other (.header []) fun b => Sector.data (base b)

/-! ### Operations are committed whole -/

/-- A group holds all writes that an operation ever logged. -/
def Whole (s : LogDisk α) (group : List (LogWrite α)) (id : Nat) : Prop :=
  s.trace.filter (fun write => write.op = id) = group.filter fun write => write.op = id

/-- The operations in committed groups have ended and are there with all their
writes. -/
def CommitsWhole (s : LogDisk α) : Prop :=
  ∀ group ∈ s.commits, ∀ write ∈ group, write.op ∈ s.ended ∧ s.Whole group write.op

structure History (s : LogDisk α) : Prop where
  logged : ∀ write ∈ s.trace, write.op < s.nextOp
  finished : ∀ id ∈ s.ended, id < s.nextOp
  going : ∀ op ∈ s.ops, op.id ∉ s.ended ∧ s.Whole s.group op.id
  group : ∀ write ∈ s.group, write ∈ s.trace ∧
    (write.op ∈ s.ended ∨ write.op ∈ s.ops.map LogOp.id) ∧ s.Whole s.group write.op
  commits : s.CommitsWhole

namespace History

variable (hist : s.History)
include hist

/-- `log_write` adds to the open group. -/
theorem writes (here : op ∈ s.ops) (write : LogWrite α) (mine : write.op = op.id)
    (trace : s'.trace = write :: s.trace) (group : s'.group = write :: s.group)
    (commits : s'.commits = s.commits) (ended : s'.ended = s.ended)
    (nextOp : s'.nextOp = s.nextOp) (bound : op.id < s.nextOp)
    (ids : s'.ops.map LogOp.id = s.ops.map LogOp.id) : s'.History := by
  have grows : ∀ id, s.Whole s.group id → s'.Whole s'.group id := by
    intro _ whole
    simp only [Whole, trace, group, List.filter_cons] at whole ⊢
    rw [whole]
  have pre : ∀ other ∈ s'.ops, ∃ old ∈ s.ops, old.id = other.id := by
    intro other mem
    exact List.mem_map.mp (ids ▸ List.mem_map_of_mem mem)
  refine ⟨?_, ?_, ?_, ?_, ?_⟩
  · intro w mem
    rw [trace] at mem
    rw [nextOp]
    rcases List.mem_cons.mp mem with rfl | old
    · exact mine ▸ bound
    · exact hist.logged w old
  · rw [ended, nextOp]
    exact hist.finished
  · intro other mem
    obtain ⟨old, within, same⟩ := pre other mem
    obtain ⟨notEnded, whole⟩ := hist.going old within
    rw [ended, ← same]
    exact ⟨notEnded, grows _ whole⟩
  · intro w mem
    rw [group] at mem
    rw [trace, ended, ids]
    rcases List.mem_cons.mp mem with rfl | old
    · refine ⟨.head _, .inr (mine ▸ List.mem_map_of_mem here), ?_⟩
      exact grows _ (mine ▸ (hist.going op here).2)
    · obtain ⟨known, active, whole⟩ := hist.group w old
      exact ⟨.tail _ known, active, grows _ whole⟩
  intro g mem w within
  rw [commits] at mem
  obtain ⟨done, whole⟩ := hist.commits g mem w within
  rw [ended]
  refine ⟨done, ?_⟩
  -- the operation that writes has not ended, so it is not one of this group
  have other : write.op ≠ w.op := by
    intro same
    rw [mine] at same
    exact (hist.going op here).1 (same ▸ done)
  rw [Whole, trace, List.filter_cons, if_neg (by simpa using other)]
  exact whole

/-- `end_op`. -/
theorem ends (bound : op.id < s.nextOp) (trace : s'.trace = s.trace) (group : s'.group = s.group)
    (commits : s'.commits = s.commits) (ended : s'.ended = op.id :: s.ended)
    (nextOp : s'.nextOp = s.nextOp) (ops : s'.ops = s.ops.filter fun other => other.id ≠ op.id) :
    s'.History := by
  have same : ∀ g id, s'.Whole g id ↔ s.Whole g id := by
    intro g id
    simp only [Whole, trace]
  refine ⟨?_, ?_, ?_, ?_, ?_⟩
  · rw [trace, nextOp]
    exact hist.logged
  · intro id mem
    rw [ended] at mem
    rw [nextOp]
    rcases List.mem_cons.mp mem with rfl | old
    · exact bound
    · exact hist.finished id old
  · intro other mem
    rw [ops] at mem
    obtain ⟨within, ne⟩ := List.mem_filter.mp mem
    obtain ⟨notEnded, whole⟩ := hist.going other within
    rw [ended, group, same, List.mem_cons, not_or]
    exact ⟨⟨of_decide_eq_true ne, notEnded⟩, whole⟩
  · intro w mem
    rw [group] at mem
    obtain ⟨known, active, whole⟩ := hist.group w mem
    rw [trace, group, same, ended, ops]
    refine ⟨known, ?_, whole⟩
    by_cases mine : w.op = op.id
    · exact .inl (mine ▸ (.head _))
    rcases active with done | going
    · exact .inl (.tail _ done)
    obtain ⟨other, within, id⟩ := List.mem_map.mp going
    refine .inr (List.mem_map.mpr ⟨other, List.mem_filter.mpr ⟨within, ?_⟩, id⟩)
    exact decide_eq_true (id ▸ mine)
  intro g mem w within
  rw [commits] at mem
  obtain ⟨done, whole⟩ := hist.commits g mem w within
  rw [ended, same]
  exact ⟨.tail _ done, whole⟩

/-- A step that closes the group, by committing or by losing it, when no
operation is going on any more. -/
theorem closes (trace : s'.trace = s.trace) (group : s'.group = [])
    (ended : s'.ended = s.ended) (nextOp : s'.nextOp = s.nextOp) (ops : s'.ops = [])
    (commits : s'.commits = s.commits ∨ s'.commits = s.group :: s.commits ∧ s.ops = []) :
    s'.History := by
  refine ⟨?_, ?_, ?_, ?_, ?_⟩
  · rw [trace, nextOp]
    exact hist.logged
  · rw [ended, nextOp]
    exact hist.finished
  · rw [ops]
    exact fun _ mem => absurd mem List.not_mem_nil
  · rw [group]
    exact fun _ mem => absurd mem List.not_mem_nil
  intro g mem w within
  simp only [Whole, trace, ended]
  rcases commits with kept | ⟨added, none⟩
  · rw [kept] at mem
    exact hist.commits g mem w within
  rw [added] at mem
  rcases List.mem_cons.mp mem with rfl | old
  · obtain ⟨_, active, whole⟩ := hist.group w within
    refine ⟨active.resolve_right ?_, whole⟩
    rw [none]
    exact List.not_mem_nil
  · exact hist.commits g old w within

/-- A step that leaves the history alone. -/
theorem keeps (trace : s'.trace = s.trace) (group : s'.group = s.group)
    (commits : s'.commits = s.commits) (ended : s'.ended = s.ended)
    (nextOp : s'.nextOp = s.nextOp) (ids : s'.ops.map LogOp.id = s.ops.map LogOp.id) :
    s'.History := by
  have same : ∀ g id, s'.Whole g id ↔ s.Whole g id := by
    intro g id
    simp only [Whole, trace]
  refine ⟨?_, ?_, ?_, ?_, ?_⟩
  · rw [trace, nextOp]
    exact hist.logged
  · rw [ended, nextOp]
    exact hist.finished
  · intro _ mem
    obtain ⟨old, within, id⟩ := List.mem_map.mp (ids ▸ List.mem_map_of_mem mem)
    rw [ended, same, group, ← id]
    exact hist.going old within
  · intro w mem
    rw [trace, ended, ids, same, group]
    exact hist.group w (group ▸ mem)
  · intro g mem w within
    rw [ended, same]
    exact hist.commits g (commits ▸ mem) w within

/-- `begin_op`: nothing has been logged under the new number. -/
theorem begins (blocks : Nat) : (s.beginOp blocks).History := by
  have fresh : ∀ part : List (LogWrite α), (∀ write ∈ part, write ∈ s.trace) →
      part.filter (fun write => write.op = s.nextOp) = [] := by
    intro _ known
    rw [List.filter_eq_nil_iff]
    intro write mem
    have older := hist.logged write (known write mem)
    rw [decide_eq_true_eq]
    exact Nat.ne_of_lt older
  refine ⟨?_, ?_, ?_, ?_, hist.commits⟩
  · exact fun write mem => Nat.lt_succ_of_lt (hist.logged write mem)
  · exact fun id mem => Nat.lt_succ_of_lt (hist.finished id mem)
  · intro op mem
    rcases List.mem_cons.mp mem with rfl | old
    · refine ⟨fun ended => Nat.lt_irrefl _ (hist.finished _ ended), ?_⟩
      exact (fresh s.trace fun _ mem => mem).trans
        (fresh s.group fun write mem => (hist.group write mem).1).symm
    · exact hist.going op old
  · intro write mem
    obtain ⟨known, active, whole⟩ := hist.group write mem
    exact ⟨known, active.imp_right (.tail _), whole⟩

theorem io (control : s.Control) (moved : LogIo s s') : s'.History := by
  have none : s.ops = [] := control.quiet moved.frame.1
  cases moved with
  | commits => exact hist.closes rfl rfl rfl rfl none (.inr ⟨rfl, none⟩)
  | nothing | something | copies | copied | installs | installed | clears | ends | reads =>
    exact hist.keeps rfl rfl rfl rfl rfl rfl

theorem step (control : s.Control) (ran : s.step act = some s') : s'.History := by
  cases logStep_cases ran with
  | begins blocks => exact hist.begins blocks
  | writes op _ _ found =>
    have present := (findOp_id found).2
    refine hist.writes present _ rfl rfl rfl rfl rfl rfl (control.bound op present) ?_
    exact updateOp_ids s op.id fun _ => rfl
  | stops op =>
    refine hist.keeps rfl rfl rfl rfl rfl ?_
    exact updateOp_ids s op.id fun _ => rfl
  | ends op found =>
    exact hist.ends (control.bound op (findOp_id found).2) rfl rfl rfl rfl rfl rfl
  | commits op found =>
    exact hist.ends (control.bound op (findOp_id found).2) rfl rfl rfl rfl rfl rfl
  | io moved => exact hist.io control moved
  | evicts => exact hist.keeps rfl rfl rfl rfl rfl rfl
  | crashes => exact hist.closes rfl rfl rfl rfl rfl (.inl rfl)

end History

theorem boot_history (start : UInt32) (size : Int) (base : UInt32 → α) :
    (boot start size base).History := by
  refine ⟨?_, ?_, ?_, ?_, ?_⟩ <;> exact fun _ mem => absurd mem List.not_mem_nil

/-! ### Recovery comes to its end -/

def recoveryStep (_ : LogDisk α) (act : LogAction α) : Prop := act = .io

/-- From the loop of `install_trans` on. -/
theorem install_ends : ∀ (left tail : Nat) (s : LogDisk α), s.pc = .installTrans true tail →
    s.log.lh.length - tail = left →
    ∃ s', Run LogDisk.step recoveryStep s s' ∧ s'.pc = .idle ∧ s'.commits = s.commits := by
  intro left
  induction left with
  | zero =>
    intro tail s here _
    have past : s.log.lh[tail]? = none := List.getElem?_eq_none_iff.mpr (by omega)
    have first : s.step .io = some { s with pc := .clearHead true } := by
      simp [LogDisk.step, LogDisk.io, here, past]
    exact ⟨_, .head rfl first (.single rfl rfl), rfl, rfl⟩
  | succ left ih =>
    intro tail s here _
    have below : tail < s.log.lh.length := by omega
    have named : s.log.lh[tail]? = some s.log.lh[tail] := List.getElem?_eq_getElem below
    have first : s.step .io = some
        { s.bwrite s.log.lh[tail] (s.cache (s.slot tail)) with
          pc := .installTrans true (tail + 1) } := by
      simp [LogDisk.step, LogDisk.io, here, named, LogDisk.bwrite]
    obtain ⟨s', rest, idle, commits⟩ := ih (tail + 1)
      { s.bwrite s.log.lh[tail] (s.cache (s.slot tail)) with
        pc := .installTrans true (tail + 1) } rfl
      (show s.log.lh.length - (tail + 1) = left by omega)
    exact ⟨s', .head rfl first rest, idle, commits⟩

/-- A recovery that is not interrupted comes to its end and commits nothing. -/
theorem recovery_ends (s : LogDisk α) (recovering : s.pc.recovering) :
    ∃ s', Run LogDisk.step recoveryStep s s' ∧ s'.pc = .idle ∧ s'.commits = s.commits := by
  generalize here : s.pc = pc at recovering
  cases pc with
  | readHead =>
    have first : s.step .io = some
        { s with
          log := { s.log with lh := (s.cache s.start).blocks }
          pc := .installTrans true 0 } := by
      simp [LogDisk.step, LogDisk.io, here]
    obtain ⟨s', rest, idle, commits⟩ := install_ends _ 0
      { s with
        log := { s.log with lh := (s.cache s.start).blocks }
        pc := .installTrans true 0 } rfl rfl
    exact ⟨s', .head rfl first rest, idle, commits⟩
  | installTrans again tail =>
    cases (show again = true from recovering)
    exact install_ends _ tail s here rfl
  | clearHead again =>
    cases (show again = true from recovering)
    have first : s.step .io = some
        { { s with log := { s.log with lh := [] } }.writeHead with pc := .idle } := by
      simp [LogDisk.step, LogDisk.io, here]
    exact ⟨_, .single rfl first, rfl, rfl⟩
  | idle | commit | writeLog | writeHead | committed => cases recovering

/-- The only step out of recovery is the one that clears the header. -/
theorem recovery_leaves (control : s.Control) (recovering : s.pc.recovering)
    (ran : s.step act = some s') (ended : s'.pc.recovering = false) :
    s'.pc = .idle ∧ s'.commits = s.commits := by
  have busy : s.pc ≠ .idle := by
    intro idle
    rw [idle] at recovering
    cases recovering
  have calls : ∀ {op : LogOp}, s.findOp op.id = some op → False := fun found =>
    busy (control.idle_of_found (findOp_id found).2)
  have contradiction : ∀ {pc : LogPc}, s.pc = pc → pc.recovering = false → False := by
    rintro _ rfl running
    rw [recovering] at running
    cases running
  cases logStep_cases ran with
  | begins _ started => exact (contradiction rfl started).elim
  | writes _ _ _ found => exact (calls found).elim
  | stops _ _ found => exact (calls found).elim
  | ends _ found => exact (calls found).elim
  | commits _ found => exact (calls found).elim
  | evicts => exact (contradiction rfl ended).elim
  | crashes => cases ended
  | io moved =>
    cases moved with
    | clears again here =>
      cases again with
      | true => exact ⟨rfl, rfl⟩
      | false => exact (contradiction here rfl).elim
    | installs _ _ _ here => exact (contradiction here ended).elim
    | installed _ _ here => exact (contradiction here ended).elim
    | reads => cases ended
    | nothing here => exact (contradiction here rfl).elim
    | something here => exact (contradiction here rfl).elim
    | copies _ _ here => exact (contradiction here rfl).elim
    | copied _ here => exact (contradiction here rfl).elim
    | commits here => exact (contradiction here rfl).elim
    | ends here => exact (contradiction here rfl).elim

/-- Every home block holds the contents after the committed groups. -/
def HoldsCommits (base : UInt32 → α) (s : LogDisk α) : Prop :=
  ∀ b, s.home b → s.disk b = s.target base b

theorem Safe.holdsCommits (safe : s.Safe base) (idle : s.pc = .idle) : s.HoldsCommits base := by
  have phase := safe.phase
  rw [idle] at phase
  exact Open.clean phase

end LogDisk

/-- Whatever crashes there have been, the committed groups consist of whole operations, an
uninterrupted recovery ends, and then the home blocks hold the contents after these groups. -/
theorem crash_atomicity (start : UInt32) {size : Int} (ne : 0 < size) (base : UInt32 → α)
    {s : LogDisk α} (reached : Run LogDisk.step (fun s act => s.writesHome act)
      (LogDisk.boot start size base) s) :
    s.CommitsWhole ∧
      (s.pc.recovering → ∃ s', Run LogDisk.step LogDisk.recoveryStep s s' ∧ s'.pc = .idle ∧
        s'.commits = s.commits ∧ s'.HoldsCommits base) ∧
      ∀ act s', s.pc.recovering → s.step act = some s' → s'.pc.recovering = false →
        s'.commits = s.commits ∧ s'.HoldsCommits base := by
  have safe : s.Safe base := by
    refine reached.invariant (P := LogDisk.Safe base) (LogDisk.boot_safe start ne base) ?_
    intro s act s' pre writesHome ran
    exact pre.step writesHome ran
  have hist : s.Control ∧ s.History := by
    apply reached.invariant (P := fun s => s.Control ∧ s.History)
      ⟨LogDisk.boot_control start size base, LogDisk.boot_history start size base⟩
    intro s act s' pre _ ran
    exact ⟨pre.1.step ran, pre.2.step pre.1 ran⟩
  refine ⟨hist.2.commits, ?_, ?_⟩
  · intro recovering
    obtain ⟨s', run, idle, commits⟩ := LogDisk.recovery_ends s recovering
    have safe' : s'.Safe base := by
      refine run.invariant (P := LogDisk.Safe base) safe ?_
      rintro s act s' pre rfl ran
      exact pre.step rfl ran
    exact ⟨s', run, idle, commits, safe'.holdsCommits idle⟩
  intro act s' recovering ran ended
  obtain ⟨idle, commits⟩ := LogDisk.recovery_leaves hist.1 recovering ran ended
  have safe' : s'.Safe base := by
    cases act with
    | io => exact safe.step rfl ran
    | beginOp | endOp | evict | crash => exact safe.step rfl ran
    | logWrite =>
      obtain ⟨_, found, _⟩ := Option.map_eq_some_iff.mp ran
      have here := hist.1.idle_of_found (findOp_id found).2
      rw [here] at recovering
      cases recovering
  exact ⟨commits, safe'.holdsCommits idle⟩

/-- Two operations log two blocks, the commit is interrupted after it has
installed one of them, and so is the recovery that follows; the next one leaves
both writes on the disk. -/
theorem crash_atomicity_interrupted :
    ∃ s : LogDisk Nat, Run LogDisk.step (fun s act => s.writesHome act)
        (LogDisk.boot 2 logsize fun _ => 0) s ∧
      s.commits = [[⟨1, 101, 8⟩, ⟨0, 100, 7⟩]] ∧ s.disk 101 = .data 0 ∧
      ∃ s', Run LogDisk.step LogDisk.recoveryStep s s' ∧ s'.commits = s.commits ∧
        s'.HoldsCommits fun _ => 0 := by
  obtain ⟨s, reached, ⟨here, commits⟩, half⟩ := exists_run_of_runChecked LogDisk.step
    (fun s act => s.writesHome act) (LogDisk.boot 2 logsize fun _ => 0)
    [.io, .io, .io, .beginOp 1, .beginOp 1, .logWrite 0 100 7, .logWrite 1 101 8, .endOp 0,
      .endOp 1, .io, .io, .io, .io, .io, .io, .crash, .io, .crash, .io]
    (P := fun s => (s.pc = .installTrans true 0 ∧ s.commits = [[⟨1, 101, 8⟩, ⟨0, 100, 7⟩]]) ∧
      s.disk 101 = .data 0) (by decide +kernel)
  obtain ⟨_, ends, _⟩ := crash_atomicity 2 (by decide) (fun _ => 0) reached
  obtain ⟨s', run, _, same, holds⟩ := ends (by rw [here]; rfl)
  exact ⟨s, reached, commits, half, s', run, same, holds⟩

end CustomXv6

/-
Module: CustomXv6.Kernel.Reports
Purpose: The reports of report_traps, child_processes and top_func (kernel/proc.c).
Trusted boundary: human-reviewed spec
Main exports: Reports.reportTraps_history, Reports.topFunc_sorted, Reports.reports_independent
-/
import CustomXv6.Kernel.Proc
import CustomXv6.Lib.AdjacentSort
import Mathlib.Data.Fintype.Fin
import Mathlib.Data.UInt
import CustomXv6.Lib.RingBuffer

namespace CustomXv6

open OverwritingRing AdjacentSort
open Function

namespace Reports

/-!
The calls read the process table slot by slot and fill a structure on the kernel stack, whose
bytes before the call are an argument.  An array is a function of the index.  A fault of the
kernel, by a null pointer or a recursion that does not end, is `none`.
-/

/-! ### Data -/

/-- `char name[16]`. -/
abbrev ProcName := Vector UInt8 16

/-- `strncpy(s, t, 16)`: after the first zero byte all bytes are zero. -/
def strncpy (t : ProcName) : ProcName :=
  .ofFn fun k => if (t.toList.take (k + 1)).all (· ≠ 0) then t.get k else 0

/-- What the calls read of a `struct proc`; `usage` is `*p->usage_time`. -/
structure ProcSlot where
  state : ProcState := .unused
  pid : Int32 := 0
  parent : Option ProcId := none
  name : ProcName := .replicate 16 0
  usage : CpuUsage := ⟨0, 0, 0, 0, 0⟩
deriving DecidableEq

abbrev Table := ProcId → ProcSlot

/-- The numbers of `enum procstate`. -/
def stateNumber : ProcState → UInt32
  | .unused => 0
  | .used => 1
  | .sleeping => 2
  | .runnable => 3
  | .running => 4
  | .zombie => 5
  | .passedQuota => 6
  | .chosenToRun => 7
  | .dropped => 8

/-- `struct proc_info` and `struct proc_info_cps`, which have the same fields. -/
structure ProcInfo where
  name : ProcName := .replicate 16 0
  pid : Int32 := 0
  ppid : Int32 := 0
  state : UInt32 := 0
  usage : CpuUsage := ⟨0, 0, 0, 0, 0⟩
deriving DecidableEq

/-- `struct top` and `struct child_processes`. -/
structure ProcList where
  count : Nat := 0
  processes : Nat → ProcInfo := fun _ => {}

abbrev maxReportBufferSize : Nat := 10

abbrev maxParentBufferSize : Nat := 4

/-- `struct report`, with the bytes that align `scause` and the end. -/
structure Report where
  pname : ProcName := .replicate 16 0
  pid : Int32 := 0
  align : UInt32 := 0
  scause : UInt64 := 0
  sepc : UInt64 := 0
  stval : UInt64 := 0
  parents : Vector Int32 maxParentBufferSize := .replicate _ 0
  parentsCount : Nat := 0
  tail : UInt32 := 0
deriving DecidableEq

/-- `struct report_list`; the values are those of `_internal_report_list` at boot. -/
structure ReportList where
  reports : Nat → Report := fun _ => {}
  numberOfReports : Nat := 0
  writeIndex : Nat := 0

/-- `struct report_traps`, with the bytes that align the end. -/
structure ReportTraps where
  reports : Nat → Report := fun _ => {}
  count : Nat := 0
  tail : UInt32 := 0

/-! ### child_processes -/

/-- `is_father`: up from `p` until a process with that pid or with pid 1 comes.  The
walk visits every slot at most once, or it does not end. -/
def isFather (table : Table) (fatherId : Int32) : (fuel : Nat) → ProcId → Option Bool
  | 0, _ => none
  | fuel + 1, p =>
    if fatherId = (table p).pid then some true
    else if (table p).pid = 1 then some false
    else
      match (table p).parent with
      | none => none
      | some parent => isFather table fatherId fuel parent

/-- One round of the loop of `child_processes`. -/
def childEntry (table : Table) (fatherPid : Int32) (cps : ProcList) (p : ProcId) :
    Option ProcList :=
  if (table p).state = .unused then some cps
  else
    match isFather table fatherPid nproc p with
    | none => none
    | some false => some cps
    | some true =>
      match (table p).parent with
      | none => none
      | some father =>
        some {
          count := cps.count + 1
          processes := update cps.processes cps.count
            { cps.processes cps.count with
              pid := (table p).pid
              state := stateNumber (table p).state
              name := strncpy (table p).name
              ppid := (table father).pid } }

/-- `child_processes`, called by process `caller`. -/
def childProcesses (table : Table) (caller : ProcId) (cps : ProcList) : Option ProcList :=
  (List.finRange nproc).foldlM (childEntry table (table caller).pid) { cps with count := 0 }

/-! ### Traps -/

/-- The loop of `add_report_trap`: the pids of the ancestors from `parent` on, at
most `rounds` of them and none above pid 1. -/
def parentPids (table : Table) : (rounds : Nat) → Option ProcId → Option (List Int32)
  | 0, _ => some []
  | _ + 1, none => none
  | rounds + 1, some parent =>
    if (table parent).pid = 1 then some [1]
    else (parentPids table rounds (table parent).parent).map ((table parent).pid :: ·)

/-- `rep` with those entries of `parents`; the others are what was on the stack. -/
def Report.withParents (rep : Report) (pids : List Int32) : Report :=
  { rep with
    parents := .ofFn fun i => pids.getD i (rep.parents.get i)
    parentsCount := pids.length }

/-- A trap: the process table at that time, the process, the three registers, and
what was on the stack in the place of `rep`. -/
structure Trap where
  table : Table
  p : ProcId
  scause : UInt64
  sepc : UInt64
  stval : UInt64
  rep : Report

/-- The report `add_report_trap` makes of a trap. -/
def Trap.report (trap : Trap) : Option Report :=
  (parentPids trap.table maxParentBufferSize (trap.table trap.p).parent).map fun pids =>
    { trap.rep with
      scause := trap.scause
      sepc := trap.sepc
      stval := trap.stval
      pid := (trap.table trap.p).pid
      pname := strncpy (trap.table trap.p).name }.withParents pids

def addReportTrap (list : ReportList) (trap : Trap) : Option ReportList :=
  trap.report.map fun rep =>
    { reports := update list.reports list.writeIndex rep
      writeIndex := if list.writeIndex = maxReportBufferSize - 1 then 0 else list.writeIndex + 1
      numberOfReports :=
        if list.numberOfReports ≠ maxReportBufferSize then list.numberOfReports + 1
        else list.numberOfReports }

/-- The inner loop of `report_traps`: one of the first `parents_count` parents has
that pid. -/
def Report.hasParent (rp : Report) (fatherPid : Int32) : Bool :=
  (rp.parents.toList.take rp.parentsCount).contains fatherPid

/-- The loop of `report_traps` over the entries that are left. -/
def reportLoop (list : ReportList) (fatherPid : Int32) : List Nat → ReportTraps → ReportTraps
  | [], reptraps => reptraps
  | i :: rest, reptraps =>
    let reptraps :=
      if (list.reports i).hasParent fatherPid then
        { reptraps with
          reports := update reptraps.reports reptraps.count (list.reports i)
          count := reptraps.count + 1 }
      else reptraps
    if reptraps.count = maxReportBufferSize then reptraps
    else reportLoop list fatherPid rest reptraps

/-- `report_traps`, called by a process with that pid. -/
def reportTraps (list : ReportList) (fatherPid : Int32) (reptraps : ReportTraps) : ReportTraps :=
  reportLoop list fatherPid (List.range list.numberOfReports) { reptraps with count := 0 }

/-! ### top_func -/

/-- What `top_func` writes about a slot. -/
def procInfo (table : Table) (p : ProcId) : ProcInfo where
  name := strncpy (table p).name
  state := stateNumber (table p).state
  pid := (table p).pid
  ppid :=
    match (table p).parent with
    | some parent => (table parent).pid
    | none => 0
  usage := (table p).usage

/-- The first loop of `top_func`, with `i` for the next entry: `i` goes on over
slots that are not in use as well. -/
def topFill (table : Table) : List ProcId → (i : Nat) → ProcList → ProcList
  | [], _, top => top
  | p :: rest, i, top =>
    if (table p).state = .unused then topFill table rest (i + 1) top
    else
      topFill table rest (i + 1)
        { count := top.count + 1
          processes := update top.processes i (procInfo table p) }

/-- What the entries are sorted by. -/
def ProcInfo.ticks (info : ProcInfo) : Nat := info.usage.sumOfTicks.toNat

def topFunc (table : Table) (top : ProcList) : ProcList :=
  let filled := topFill table (List.finRange nproc) 0 { top with count := 0 }
  { filled with
    processes := AdjacentSort.sortUpTo ProcInfo.ticks filled.processes filled.count }

/-! ### The bytes that are copied out -/

def bytes32 (w : UInt32) : List UInt8 :=
  [w.toUInt8, (w >>> 8).toUInt8, (w >>> 16).toUInt8, (w >>> 24).toUInt8]

def bytes64 (w : UInt64) : List UInt8 := bytes32 w.toUInt32 ++ bytes32 (w >>> 32).toUInt32

def CpuUsage.bytes (usage : CpuUsage) : List UInt8 :=
  bytes32 usage.sumOfTicks ++ bytes32 usage.startTick ++ bytes32 usage.quota ++
    bytes32 usage.lastSchedTick ++ bytes32 usage.deadline

def ProcInfo.bytes (info : ProcInfo) : List UInt8 :=
  info.name.toList ++ bytes32 info.pid.toUInt32 ++ bytes32 info.ppid.toUInt32 ++
    bytes32 info.state ++ CpuUsage.bytes info.usage

def ProcList.bytes (list : ProcList) : List UInt8 :=
  bytes32 (UInt32.ofNat list.count) ++ (List.range nproc).flatMap fun i => (list.processes i).bytes

def Report.bytes (rp : Report) : List UInt8 :=
  rp.pname.toList ++ bytes32 rp.pid.toUInt32 ++ bytes32 rp.align ++ bytes64 rp.scause ++
    bytes64 rp.sepc ++ bytes64 rp.stval ++
    rp.parents.toList.flatMap (fun pid => bytes32 pid.toUInt32) ++
    bytes32 (UInt32.ofNat rp.parentsCount) ++ bytes32 rp.tail

def ReportTraps.bytes (reptraps : ReportTraps) : List UInt8 :=
  ((List.range maxReportBufferSize).flatMap fun i => (reptraps.reports i).bytes) ++
    bytes32 (UInt32.ofNat reptraps.count) ++ bytes32 reptraps.tail

/-- `copyin(p->pagetable, (char *)user, (uint64)&buffer, sizeof(buffer))`: the source is on the
kernel stack, and `page` is what `walkaddr` finds there in the page table of the process.  The
kernel stacks are not in it, so nothing is copied. -/
def copyinBuffer {α : Type} (page : Option UInt64) (buffer : α) : Option α :=
  match page with
  | none => some buffer
  | some _ => none

/-- `sys_child_processes`: the bytes it copies out. -/
def sysChildProcesses (page : Option UInt64) (table : Table) (caller : ProcId)
    (kcps : ProcList) : Option (List UInt8) := do
  let kcps ← copyinBuffer page kcps
  let kcps ← childProcesses table caller kcps
  return kcps.bytes

/-- `sys_report_traps`: the bytes it copies out. -/
def sysReportTraps (page : Option UInt64) (list : ReportList) (table : Table) (caller : ProcId)
    (kreptraps : ReportTraps) : Option (List UInt8) := do
  let kreptraps ← copyinBuffer page kreptraps
  return (reportTraps list (table caller).pid kreptraps).bytes

/-- `sys_top_func`: the bytes it copies out. -/
def sysTopFunc (page : Option UInt64) (table : Table) (ktop : ProcList) :
    Option (List UInt8) := do
  let ktop ← copyinBuffer page ktop
  return (topFunc table ktop).bytes

/-! ### Ancestors -/

/-- The process `k` generations above the process to which `start` points; there is
nobody above pid 1. -/
def above (table : Table) : Nat → Option ProcId → Option ProcId
  | 0, start => start
  | _ + 1, none => none
  | k + 1, some q => if (table q).pid = 1 then none else above table k (table q).parent

/-- The ancestor number `k` of a process, the parent having number 0. -/
def ancestor (table : Table) (p : ProcId) (k : Nat) : Option ProcId :=
  above table k (table p).parent

/-- A process with that pid is among the nearest ancestors of the process that
trapped, at the time of the trap. -/
def Trap.near (trap : Trap) (pid : Int32) : Bool :=
  (List.range maxParentBufferSize).any fun k =>
    (ancestor trap.table trap.p k).any fun q => (trap.table q).pid == pid

/-- The parent chain of the process that trapped reaches pid 1. -/
def Trap.ReachesInit (trap : Trap) : Prop :=
  ∃ k q, ancestor trap.table trap.p k = some q ∧ (trap.table q).pid = 1

/-- The loop of `add_report_trap` finds the pids of the nearest ancestors. -/
theorem parentPids_spec {table : Table} (rounds : Nat) : ∀ {start : Option ProcId},
    (∃ k q, above table k start = some q ∧ (table q).pid = 1) →
    ∃ pids, parentPids table rounds start = some pids ∧ pids.length ≤ rounds ∧
      ∀ pid, pid ∈ pids ↔ ∃ k q, k < rounds ∧ above table k start = some q ∧
        (table q).pid = pid := by
  induction rounds with
  | zero =>
    intro start _
    refine ⟨[], rfl, le_rfl, fun pid => ?_⟩
    constructor
    · intro mem
      cases mem
    · rintro ⟨k, q, absurd, _⟩
      exact (Nat.not_lt_zero k absurd).elim
  | succ rounds ih =>
    rintro start ⟨k, init, run, isInit⟩
    cases start with
    | none => cases k <;> cases run
    | some q =>
      unfold parentPids
      by_cases top : (table q).pid = 1
      · rw [if_pos top]
        refine ⟨[1], rfl, by simp, fun pid => ?_⟩
        rw [List.mem_singleton]
        constructor
        · rintro rfl
          exact ⟨0, q, Nat.succ_pos rounds, rfl, top⟩
        rintro ⟨j, r, _, found, same⟩
        cases j with
        | zero =>
          cases found
          exact same.symm.trans top
        | succ =>
          rw [above, if_pos top] at found
          cases found
      rw [if_neg top]
      -- The walk goes on from the parent of `q`, one generation less.
      have further : ∃ k r, above table k (table q).parent = some r ∧
          (table r).pid = 1 := by
        cases k with
        | zero =>
          cases run
          exact (top isInit).elim
        | succ k =>
          rw [above, if_neg top] at run
          exact ⟨k, init, run, isInit⟩
      obtain ⟨pids, found, short, members⟩ := ih further
      refine ⟨(table q).pid :: pids, ?_, Nat.succ_le_succ short, fun pid => ?_⟩
      · rw [found]
        rfl
      rw [List.mem_cons, members]
      constructor
      · rintro (rfl | ⟨j, r, below, here, same⟩)
        · exact ⟨0, q, Nat.succ_pos rounds, rfl, rfl⟩
        refine ⟨j + 1, r, Nat.succ_lt_succ below, ?_, same⟩
        rw [above, if_neg top]
        exact here
      rintro ⟨j, r, below, here, same⟩
      cases j with
      | zero =>
        cases here
        exact .inl same.symm
      | succ j =>
        rw [above, if_neg top] at here
        exact .inr ⟨j, r, Nat.lt_of_succ_lt_succ below, here, same⟩

/-- The entries of `parents` that count are the pids. -/
theorem Report.hasParent_withParents (rep : Report) {pids : List Int32}
    (short : pids.length ≤ maxParentBufferSize) (pid : Int32) :
    (rep.withParents pids).hasParent pid = true ↔ pid ∈ pids := by
  have entries : (rep.withParents pids).parents.toList.take pids.length = pids := by
    apply List.ext_getElem
    · rw [List.length_take, Vector.length_toList]
      omega
    intro k _ lt
    rw [List.getElem_take, Vector.getElem_toList]
    simp only [withParents, Vector.getElem_ofFn, List.getD_eq_getElem?_getD,
      List.getElem?_eq_getElem lt, Option.getD_some]
  unfold hasParent
  rw [show (rep.withParents pids).parentsCount = pids.length from rfl, entries,
    List.contains_iff_mem]

variable {trap : Trap} {reports : List Report} {traps : List Trap}

/-- The report of a trap names its caller as a parent exactly for the nearest
ancestors. -/
theorem Trap.report_spec (reaches : trap.ReachesInit) :
    ∃ rp, trap.report = some rp ∧ ∀ pid, rp.hasParent pid = trap.near pid := by
  obtain ⟨_, found, short, members⟩ := parentPids_spec maxParentBufferSize reaches
  refine ⟨_, by rw [report, found]; rfl, fun pid => ?_⟩
  rw [Bool.eq_iff_iff, Report.hasParent_withParents _ short, members]
  simp only [near, List.any_eq_true, List.mem_range, Option.any_eq_true, beq_iff_eq]
  constructor
  · rintro ⟨k, q, below, here, same⟩
    exact ⟨k, below, q, here, same⟩
  · rintro ⟨k, below, q, here, same⟩
    exact ⟨k, q, below, here, same⟩

/-! ### The list of reports -/

/-- The list after some traps, with the reports of all of them. -/
structure ReportList.After (traps : List Trap) (reports : List Report) (list : ReportList) :
    Prop where
  reported : List.Forall₂ (fun trap rp => trap.report = some rp) traps reports
  recent : Recent maxReportBufferSize list.reports reports
  number : list.numberOfReports = min reports.length maxReportBufferSize
  index : list.writeIndex = reports.length % maxReportBufferSize

/-- One trap more. -/
theorem ReportList.After.add {list : ReportList} {rp : Report} (after : After traps reports list)
    (reported : trap.report = some rp) :
    ∃ list', addReportTrap list trap = some list' ∧
      After (traps ++ [trap]) (reports ++ [rp]) list' := by
  refine ⟨_, by rw [addReportTrap, reported]; rfl, ?_⟩
  have index := after.index
  have number := after.number
  constructor
  · exact List.rel_append after.reported (.cons reported .nil)
  · dsimp only
    rw [index]
    exact after.recent.push rp
  · dsimp only
    rw [List.length_append, List.length_singleton, number]
    split <;> omega
  dsimp only
  rw [List.length_append, List.length_singleton, index]
  change (if reports.length % 10 = 9 then 0 else reports.length % 10 + 1) =
    (reports.length + 1) % 10
  split <;> omega

theorem addReportTrap_all (traps : List Trap) (reaches : ∀ trap ∈ traps, trap.ReachesInit) :
    ∃ list reports, traps.foldlM addReportTrap {} = some list ∧
      ReportList.After traps reports list := by
  induction traps using List.reverseRecOn with
  | nil => exact ⟨{}, [], rfl, .nil, .nil _ _, rfl, rfl⟩
  | append_singleton traps trap ih =>
    obtain ⟨_, reports, run, after⟩ := ih fun earlier mem =>
      reaches earlier (List.mem_append_left [trap] mem)
    obtain ⟨rp, reported, _⟩ := Trap.report_spec
      (reaches trap (List.mem_append_right traps (List.mem_singleton_self trap)))
    obtain ⟨list', added, after'⟩ := after.add reported
    refine ⟨list', reports ++ [rp], ?_, after'⟩
    rw [List.foldlM_append, run, Option.bind_eq_bind, Option.bind_some, List.foldlM_cons, added]
    rfl

/-! ### What report_traps returns -/

def ReportTraps.entries (reptraps : ReportTraps) : List Report :=
  (List.range reptraps.count).map reptraps.reports

/-- The loop adds the reports of the caller's descendants among those that are left. -/
theorem reportLoop_spec (list : ReportList) (pid : Int32) (left : List Nat) :
    ∀ reptraps : ReportTraps, reptraps.count + left.length ≤ maxReportBufferSize →
    (reportLoop list pid left reptraps).entries =
      reptraps.entries ++ (left.map list.reports).filter (·.hasParent pid) := by
  induction left with
  | nil => exact fun reptraps _ => (List.append_nil _).symm
  | cons i rest ih =>
    intro reptraps room
    rw [List.length_cons] at room
    unfold reportLoop
    rw [List.map_cons, List.filter_cons]
    by_cases mine : (list.reports i).hasParent pid = true
    · simp only [if_pos mine]
      have added : ReportTraps.entries { reptraps with
          reports := update reptraps.reports reptraps.count (list.reports i)
          count := reptraps.count + 1 } = reptraps.entries ++ [list.reports i] := by
        unfold ReportTraps.entries
        dsimp only
        rw [List.range_succ, List.map_append, List.map_singleton, Function.update_self]
        congr 1
        apply List.map_congr_left
        intro k mem
        rw [Function.update_of_ne (Nat.ne_of_lt (List.mem_range.mp mem))]
      split
      · rename_i full
        have none : rest = [] := List.length_eq_zero_iff.mp (by omega)
        rw [added, none]
        rfl
      · rw [ih _ (by dsimp only; omega), added, List.append_assoc]
        rfl
    · simp only [if_neg mine]
      split
      · omega
      · exact ih reptraps (by omega)

/-- Reports that name the caller are those of traps to which it is near. -/
theorem filter_reports (pid : Int32) (reaches : ∀ trap ∈ traps, trap.ReachesInit)
    (reported : List.Forall₂ (fun trap rp => trap.report = some rp) traps reports) :
    reports.filter (·.hasParent pid) =
        (traps.filter fun trap => trap.near pid).filterMap Trap.report ∧
      (reports.filter (·.hasParent pid)).length =
        (traps.filter fun trap => trap.near pid).length := by
  induction reported with
  | nil => exact ⟨rfl, rfl⟩
  | @cons trap rp _ _ here _ ih =>
    obtain ⟨rp', found, near⟩ := Trap.report_spec (reaches trap (.head _))
    obtain rfl : _ = _ := Option.some.inj (here.symm.trans found)
    obtain ⟨same, lengths⟩ := ih fun later mem =>
      reaches later (.tail trap mem)
    rw [List.filter_cons, List.filter_cons, near pid]
    split
    · rw [List.filterMap_cons, here, same, List.length_cons, List.length_cons, ← lengths, same]
      exact ⟨rfl, rfl⟩
    · exact ⟨same, lengths⟩

/-- After any sequence of traps by processes whose parent chain reaches pid 1, `report_traps`
returns, each once and in some order, those of the latest `MAX_REPORT_BUFFER_SIZE` reports for
which the caller was among the nearest `MAX_PARENT_BUFFER_SIZE` ancestors of the process. -/
theorem reportTraps_history (traps : List Trap) (reaches : ∀ trap ∈ traps, trap.ReachesInit)
    (pid : Int32) (reptraps : ReportTraps) :
    ∃ list, traps.foldlM addReportTrap {} = some list ∧
      ((reportTraps list pid reptraps).entries).Perm
        (((traps.drop (traps.length - maxReportBufferSize)).filter fun trap =>
          trap.near pid).filterMap Trap.report) ∧
      (reportTraps list pid reptraps).count =
        ((traps.drop (traps.length - maxReportBufferSize)).filter fun trap =>
          trap.near pid).length ∧
      (reportTraps list pid reptraps).count ≤ maxReportBufferSize := by
  obtain ⟨list, reports, run, after⟩ := addReportTrap_all traps reaches
  have known : traps.length = reports.length := after.reported.length_eq
  have wrote : (reportTraps list pid reptraps).entries =
      ((List.range list.numberOfReports).map list.reports).filter (·.hasParent pid) := by
    unfold reportTraps
    rw [reportLoop_spec]
    · rfl
    rw [List.length_range, after.number]
    dsimp only
    omega
  have latest : ((List.range list.numberOfReports).map list.reports).Perm
      (reports.drop (traps.length - maxReportBufferSize)) := by
    rw [after.number, known]
    exact after.recent.perm
  obtain ⟨mine, number⟩ := filter_reports pid
    (fun trap mem => reaches trap (List.mem_of_mem_drop mem))
    (List.forall₂_drop (traps.length - maxReportBufferSize) after.reported)
  have perm : ((reportTraps list pid reptraps).entries).Perm
      ((reports.drop (traps.length - maxReportBufferSize)).filter (·.hasParent pid)) := by
    rw [wrote]
    exact latest.filter _
  have count : (reportTraps list pid reptraps).count =
      ((traps.drop (traps.length - maxReportBufferSize)).filter fun trap =>
        trap.near pid).length := by
    have length := perm.length_eq
    rwa [ReportTraps.entries, List.length_map, List.length_range, number] at length
  refine ⟨list, run, mine ▸ perm, count, ?_⟩
  have most := List.length_filter_le (fun trap : Trap => trap.near pid)
    (traps.drop (traps.length - maxReportBufferSize))
  rw [List.length_drop] at most
  omega

/-- A trap of the process with pid 2, a child of the first one. -/
def sampleTrap : Trap where
  table := fun p =>
    if p = 0 then { state := .sleeping, pid := 1 }
    else if p = 1 then { state := .running, pid := 2, parent := some 0 }
    else {}
  p := 1
  scause := 13
  sepc := 0
  stval := 0
  rep := {}

/-- Of twelve traps of its child the first process gets the last ten. -/
theorem reportTraps_history_twelve :
    ∃ list, (List.replicate 12 sampleTrap).foldlM addReportTrap {} = some list ∧
      (reportTraps list 1 {}).count = 10 := by
  have reaches : ∀ trap ∈ List.replicate 12 sampleTrap, trap.ReachesInit := by
    intro _ mem
    rw [List.eq_of_mem_replicate mem]
    exact ⟨0, 0, rfl, rfl⟩
  obtain ⟨list, run, _, count, _⟩ := reportTraps_history _ reaches 1 {}
  refine ⟨list, run, count.trans ?_⟩
  decide +kernel

variable {table : Table} {caller : ProcId}

/-! ### top_func -/

def inUse (table : Table) : List ProcId :=
  (List.finRange nproc).filter fun p => (table p).state ≠ .unused

/-- Every slot before a slot in use is in use. -/
def Packed (table : Table) : Prop :=
  ∀ p q : ProcId, p < q → (table q).state ≠ .unused → (table p).state ≠ .unused

variable {slots : List ProcId} {list : ReportList}

theorem topFill_unused (unused : ∀ p ∈ slots, (table p).state = .unused) (i : Nat)
    (top : ProcList) : topFill table slots i top = top := by
  induction slots generalizing i with
  | nil => rfl
  | cons p _ ih =>
    rw [topFill, if_pos (unused p List.mem_cons_self)]
    exact ih (fun q mem => unused q (.tail p mem)) (i + 1)

/-- The first loop on slots of which the used ones come first: its entries are theirs, in order. -/
theorem topFill_packed
    (packed : slots.Pairwise fun p q => (table q).state ≠ .unused → (table p).state ≠ .unused) :
    ∀ top : ProcList, (List.range (topFill table slots top.count top).count).map
        (topFill table slots top.count top).processes =
      (List.range top.count).map top.processes ++
        (slots.filter fun p => (table p).state ≠ .unused).map (procInfo table) := by
  induction slots with
  | nil => exact fun top => (List.append_nil _).symm
  | cons p rest ih =>
    intro top
    obtain ⟨pre, packedRest⟩ := List.pairwise_cons.mp packed
    by_cases unused : (table p).state = .unused
    · have all : ∀ q ∈ p :: rest, (table q).state = .unused := by
        intro q mem
        cases mem with
        | head => exact unused
        | tail _ later =>
          by_contra used
          exact pre q later used unused
      have none : (p :: rest).filter (fun q => (table q).state ≠ .unused) = [] := by
        rw [List.filter_eq_nil_iff]
        intro q mem
        simp only [all q mem, ne_eq, not_true_eq_false, decide_false, Bool.false_eq_true,
          not_false_eq_true]
      rw [topFill_unused all, none, List.map_nil, List.append_nil]
    rw [topFill, if_neg unused]
    have entries := ih packedRest
      { count := top.count + 1
        processes := update top.processes top.count (procInfo table p) }
    have first : (p :: rest).filter (fun q => (table q).state ≠ .unused) =
        p :: rest.filter fun q => (table q).state ≠ .unused := by
      rw [List.filter_cons, if_pos (decide_eq_true unused)]
    rw [entries, first, List.map_cons]
    dsimp only
    rw [List.range_succ, List.map_append, List.map_singleton, update_self, List.append_assoc]
    congr 1
    apply List.map_congr_left
    intro k mem
    rw [update_of_ne (Nat.ne_of_lt (List.mem_range.mp mem))]

/-- The sorting loop of `top_func` permutes the first `n` entries into the order of their
`sum_of_ticks`, keeps the order of entries that have the same, and leaves the others alone. -/
theorem topFunc_sorts (processes : Nat → ProcInfo) (n : Nat) :
    ((List.range n).map (sortUpTo ProcInfo.ticks processes n)).Perm
        ((List.range n).map processes) ∧
      (∀ x y, x < y → y < n → (sortUpTo ProcInfo.ticks processes n x).usage.sumOfTicks ≤
        (sortUpTo ProcInfo.ticks processes n y).usage.sumOfTicks) ∧
      ∃ src : Equiv.Perm Nat,
        (∀ k, sortUpTo ProcInfo.ticks processes n k = processes (src k)) ∧
        (∀ x y, x < y → (processes (src x)).usage.sumOfTicks =
          (processes (src y)).usage.sumOfTicks → src x < src y) ∧
        ∀ k, n ≤ k → src k = k := by
  refine ⟨sortUpTo_perm ProcInfo.ticks processes n, fun x y less below => ?_, ?_⟩
  · exact UInt32.le_iff_toNat_le.mpr (sortUpTo_sorted ProcInfo.ticks processes n x y less below)
  · obtain ⟨src, fixed, same, stable⟩ := sortUpTo_rearranges ProcInfo.ticks processes n
    refine ⟨src, same, fun x y less equal => stable x y less ?_, fixed⟩
    rw [same, same, ProcInfo.ticks, equal, ProcInfo.ticks]

/-- The first loop writes the entry with the number of each slot in use, and no other one. -/
theorem topFill_eq (slots : List ProcId) : ∀ (i : Nat) (top : ProcList),
    (topFill table slots i top).count =
      top.count + (slots.filter fun p => (table p).state ≠ .unused).length ∧
    (∀ k, k < i → (topFill table slots i top).processes k = top.processes k) ∧
    ∀ k (lt : k < slots.length), (topFill table slots i top).processes (i + k) =
      if (table slots[k]).state = .unused then top.processes (i + k)
      else procInfo table slots[k] := by
  induction slots with
  | nil => exact fun i top => ⟨rfl, fun _ _ => rfl, fun k absurd => (Nat.not_lt_zero k absurd).elim⟩
  | cons p rest ih =>
    intro i top
    rw [topFill, List.filter_cons]
    by_cases unused : (table p).state = .unused
    · obtain ⟨count, pre, entries⟩ := ih (i + 1) top
      rw [if_pos unused, if_neg (by simp [unused])]
      refine ⟨count, fun k below => pre k (by omega), fun k lt => ?_⟩
      cases k with
      | zero =>
        rw [List.getElem_cons_zero, if_pos unused]
        exact pre i (Nat.lt_succ_self i)
      | succ k =>
        rw [List.getElem_cons_succ, ← Nat.add_assoc, Nat.add_right_comm]
        exact entries k (Nat.lt_of_succ_lt_succ lt)
    obtain ⟨count, pre, entries⟩ := ih (i + 1)
      { count := top.count + 1, processes := update top.processes i (procInfo table p) }
    rw [if_neg unused, if_pos (by simp [unused])]
    refine ⟨?_, fun k below => ?_, fun k lt => ?_⟩
    · rw [count, List.length_cons]
      dsimp only
      omega
    · rw [pre k (by omega)]
      exact update_of_ne (by omega) ..
    cases k with
    | zero =>
      rw [List.getElem_cons_zero, if_neg unused]
      exact (pre i (Nat.lt_succ_self i)).trans (update_self ..)
    | succ k =>
      rw [List.getElem_cons_succ, ← Nat.add_assoc, Nat.add_right_comm,
        entries k (Nat.lt_of_succ_lt_succ lt)]
      dsimp only
      rw [update_of_ne (by omega)]

/-- The buffer of `top_func` after its first loop. -/
abbrev topFilled (table : Table) (top : ProcList) : ProcList :=
  topFill table (List.finRange nproc) 0 { top with count := 0 }

theorem topFilled_count (table : Table) (top : ProcList) :
    (topFilled table top).count = (inUse table).length :=
  (topFill_eq _ 0 _).1.trans (Nat.zero_add _)

theorem topFilled_entry (table : Table) (top : ProcList) (p : ProcId) :
    (topFilled table top).processes p =
      if (table p).state = .unused then top.processes p else procInfo table p := by
  have entry := (@topFill_eq table (List.finRange nproc) 0 { top with count := 0 }).2.2 p
    (by rw [List.length_finRange]; exact p.isLt)
  rw [Nat.zero_add, List.getElem_finRange] at entry
  exact entry

/-- A buffer with entries in a state that no process has. -/
def markedWith (state : UInt32) : ProcList where
  processes := fun _ => { state := state }

theorem procInfo_state (table : Table) (p : ProcId) : (procInfo table p).state < 9 := by
  change stateNumber (table p).state < 9
  cases (table p).state <;> decide

theorem inUse_length (table : Table) : (inUse table).length ≤ nproc :=
  (List.length_filter_le _ _).trans (Nat.le_of_eq List.length_finRange)

/-- Slots in use that come first are as many as the numbers below their number. -/
theorem packed_of_first
    (first : ∀ p : ProcId, (p : Nat) < (inUse table).length → (table p).state ≠ .unused) :
    Packed table := by
  have nodup : (inUse table).Nodup := (List.nodup_finRange nproc).filter _
  have same : (Finset.univ.filter fun p : ProcId => (p : Nat) < (inUse table).length) =
      (inUse table).toFinset := by
    apply Finset.eq_of_subset_of_card_le
    · intro p mem
      have used := first p (Finset.mem_filter.mp mem).2
      simpa [inUse] using used
    · rw [List.toFinset_card_of_nodup nodup, Fin.card_filter_val_lt, Nat.min_eq_right (inUse_length table)]
  intro p q less used
  have lt : q ∈ (inUse table).toFinset := by simpa [inUse] using used
  rw [← same] at lt
  exact first p (Nat.lt_trans less (Finset.mem_filter.mp lt).2)

/-- What `top_func` is to do: it counts the slots in use, and its entries are their records,
sorted by `sum_of_ticks`. -/
def TopReports (table : Table) (res : ProcList) : Prop :=
  res.count = (inUse table).length ∧
    ((List.range res.count).map res.processes).Perm ((inUse table).map (procInfo table)) ∧
    ∀ x y, x < y → y < res.count →
      (res.processes x).usage.sumOfTicks ≤ (res.processes y).usage.sumOfTicks

/-- Whatever the buffer holds, `top_func` does that exactly if the slots in use come first. -/
theorem topFunc_sorted (table : Table) :
    (∀ top, TopReports table (topFunc table top)) ↔ Packed table := by
  constructor
  · -- An entry of the old buffer would be among those that count.
    intro reports
    apply packed_of_first
    intro p lt unused
    obtain ⟨count, entries, _⟩ := reports (markedWith 9)
    have sorted := (sortUpTo_perm ProcInfo.ticks (topFilled table (markedWith 9)).processes
      (topFilled table (markedWith 9)).count).symm.trans entries
    have marked : (markedWith 9).processes p ∈ (inUse table).map (procInfo table) := by
      rw [← sorted.mem_iff, List.mem_map, topFilled_count]
      refine ⟨p, List.mem_range.mpr lt, ?_⟩
      rw [topFilled_entry, if_pos unused]
    obtain ⟨q, _, same⟩ := List.mem_map.mp marked
    have small := procInfo_state table q
    rw [same] at small
    exact absurd (show (9 : UInt32) < 9 from small) (by decide)
  intro packed top
  have ordered : (List.finRange nproc).Pairwise fun p q =>
      (table q).state ≠ .unused → (table p).state ≠ .unused :=
    (List.pairwise_lt_finRange nproc).imp fun {p q} less => packed p q less
  have entries := topFill_packed ordered { top with count := 0 }
  rw [List.range_zero, List.map_nil, List.nil_append] at entries
  refine ⟨topFilled_count table top, ?_, fun x y less below => ?_⟩
  · rw [inUse, ← entries]
    exact sortUpTo_perm ProcInfo.ticks _ _
  · exact UInt32.le_iff_toNat_le.mpr (sortUpTo_sorted ProcInfo.ticks _ _ x y less below)

/-- Processes in the slots 0 and 2. -/
def gapTable : Table := fun p =>
  if p = 0 then { state := .sleeping, pid := 1 }
  else if p = 2 then { state := .running, pid := 3, parent := some 0 }
  else {}

def packedTable : Table := fun p =>
  if p = 0 then { state := .sleeping, pid := 1, usage := ⟨7, 0, 0, 0, 0⟩ }
  else if p = 1 then { state := .running, pid := 2, parent := some 0, usage := ⟨4, 0, 0, 0, 0⟩ }
  else {}

theorem topFunc_sorted_packedTable :
    TopReports packedTable (topFunc packedTable {}) ∧ (inUse packedTable).length = 2 := by
  have packed : Packed packedTable := by
    unfold Packed
    decide +kernel
  exact ⟨(topFunc_sorted packedTable).mpr packed {}, by decide +kernel⟩

/-- With a free slot before one in use, the later record is not among the entries that count. -/
theorem topFunc_skips_gap :
    (topFunc gapTable {}).count = 2 ∧ 2 ∈ inUse gapTable ∧
      procInfo gapTable 2 ∉ (List.range 2).map (topFunc gapTable {}).processes := by
  decide +kernel

/-! ### The bytes of the kernel stack -/

/-- The slots about which `child_processes` reports to `caller`. -/
def children (table : Table) (caller : ProcId) (slots : List ProcId) : List ProcId :=
  slots.filter fun p =>
    (table p).state ≠ .unused ∧ isFather table (table caller).pid nproc p = some true

theorem ProcList.bytes_congr {list list' : ProcList} (count : list.count = list'.count)
    (entries : ∀ i, i < nproc → list.processes i = list'.processes i) :
    list.bytes = list'.bytes := by
  have same : (List.range nproc).flatMap (fun i => (list.processes i).bytes) =
      (List.range nproc).flatMap fun i => (list'.processes i).bytes := by
    apply List.flatMap_congr
    intro i mem
    rw [entries i (List.mem_range.mp mem)]
  rw [ProcList.bytes, ProcList.bytes, count, same]

theorem flatMap_inj {α : Type} {f g : Nat → List α} {m : Nat} (lengths : ∀ i, (f i).length = m)
    (lengths' : ∀ i, (g i).length = m) {entries : List Nat}
    (same : entries.flatMap f = entries.flatMap g) : ∀ i ∈ entries, f i = g i := by
  induction entries with
  | nil => exact fun _ mem => absurd mem List.not_mem_nil
  | cons k rest ih =>
    rw [List.flatMap_cons, List.flatMap_cons] at same
    obtain ⟨here, later⟩ := List.append_inj same ((lengths k).trans (lengths' k).symm)
    exact List.forall_mem_cons.mpr ⟨here, ih later⟩

theorem ProcInfo.length_bytes (info : ProcInfo) : info.bytes.length = 48 := by
  simp [ProcInfo.bytes, CpuUsage.bytes, bytes32]

/-- Buffers with the same bytes have entries with the same bytes. -/
theorem ProcList.bytes_inj {list list' : ProcList} (same : list.bytes = list'.bytes) :
    ∀ i, i < nproc → (list.processes i).bytes = (list'.processes i).bytes := by
  have entries := (List.append_inj same (by simp [bytes32])).2
  intro i lt
  exact flatMap_inj (fun _ => ProcInfo.length_bytes _) (fun _ => ProcInfo.length_bytes _) entries i
    (List.mem_range.mpr lt)

theorem ProcInfo.bytes_inj {info info' : ProcInfo} (same : info.bytes = info'.bytes) :
    bytes32 info.state = bytes32 info'.state ∧
      CpuUsage.bytes info.usage = CpuUsage.bytes info'.usage := by
  obtain ⟨front, usage⟩ := List.append_inj' same (by simp [CpuUsage.bytes, bytes32])
  exact ⟨(List.append_inj' front rfl).2, usage⟩

/-- Whether `child_processes` faults does not depend on the buffer, and it never writes `usage`. -/
theorem childLoop_usage (pid : Int32) (slots : List ProcId) : ∀ list list' : ProcList,
    (slots.foldlM (childEntry table pid) list = none ∧
      slots.foldlM (childEntry table pid) list' = none) ∨
    ∃ last last', slots.foldlM (childEntry table pid) list = some last ∧
      slots.foldlM (childEntry table pid) list' = some last' ∧
      ∀ i, (last.processes i).usage = (list.processes i).usage ∧
        (last'.processes i).usage = (list'.processes i).usage := by
  have wrote : ∀ (list : ProcList) (info : ProcInfo) (i : Nat),
      info.usage = (list.processes list.count).usage →
      (update list.processes list.count info i).usage = (list.processes i).usage := by
    intro list info i kept
    rw [update_apply]
    split
    · rename_i here
      rw [here, kept]
    · rfl
  induction slots with
  | nil => exact fun list list' => .inr ⟨list, list', rfl, rfl, fun _ => ⟨rfl, rfl⟩⟩
  | cons p rest ih =>
    intro list list'
    rw [List.foldlM_cons, List.foldlM_cons]
    unfold childEntry
    split
    · exact ih list list'
    split
    · exact .inl ⟨rfl, rfl⟩
    · exact ih list list'
    split
    · exact .inl ⟨rfl, rfl⟩
    rename_i father _
    refine (ih _ _).imp_right ?_
    rintro ⟨last, last', runs, runs', usage⟩
    refine ⟨last, last', runs, runs', fun i => ?_⟩
    rw [(usage i).1, (usage i).2]
    exact ⟨wrote list _ i rfl, wrote list' _ i rfl⟩

theorem sysChildProcesses_eq (kcps : ProcList) : sysChildProcesses none table caller kcps =
    ((List.finRange nproc).foldlM (childEntry table (table caller).pid)
      { kcps with count := 0 }).map ProcList.bytes :=
  (Option.map_eq_bind ..).symm

/-- What `child_processes` copies out depends on the old contents of the buffer whenever the call
returns. -/
theorem sysChildProcesses_disclose :
    (∀ kcps kcps', sysChildProcesses none table caller kcps =
      sysChildProcesses none table caller kcps') ↔
    sysChildProcesses none table caller {} = none := by
  have loop := @childLoop_usage table (table caller).pid (List.finRange nproc)
  constructor
  · intro same
    have dirty := same {} { processes := fun _ => { usage := ⟨0, 0, 1, 0, 0⟩ } }
    rw [sysChildProcesses_eq, sysChildProcesses_eq] at dirty
    rw [sysChildProcesses_eq]
    obtain ⟨fails, _⟩ | ⟨last, last', runs, runs', usage⟩ := loop { ({} : ProcList) with count := 0 }
      { count := 0, processes := fun _ => { usage := ⟨0, 0, 1, 0, 0⟩ } }
    · rw [fails]
      rfl
    rw [runs, runs'] at dirty
    have first := (ProcInfo.bytes_inj (ProcList.bytes_inj (Option.some.inj dirty) 0 (by decide))).2
    rw [(usage 0).1, (usage 0).2] at first
    exact absurd first (by decide)
  intro fails kcps kcps'
  have all : ∀ kcps, sysChildProcesses none table caller kcps = none := by
    intro kcps
    rw [sysChildProcesses_eq, Option.map_eq_none_iff] at fails ⊢
    obtain ⟨_, failed⟩ | ⟨_, _, runs, _⟩ := loop { ({} : ProcList) with count := 0 }
      { kcps with count := 0 }
    · exact failed
    · rw [runs] at fails
      cases fails
  rw [all kcps, all kcps']

theorem reportLoop_tail (list : ReportList) (pid : Int32) (left : List Nat) :
    ∀ now : ReportTraps, (reportLoop list pid left now).tail = now.tail := by
  induction left with
  | nil => exact fun _ => rfl
  | cons i rest ih =>
    intro now
    rw [reportLoop]
    split
    · split
      · rfl
      · exact ih _
    · split
      · rfl
      · exact ih now

/-- What `report_traps` copies out always depends on it: the alignment at the end is not written. -/
theorem sysReportTraps_discloses (list : ReportList) :
    ¬ ∀ kreptraps kreptraps', sysReportTraps none list table caller kreptraps =
      sysReportTraps none list table caller kreptraps' := by
  intro same
  have bytes := Option.some.inj (same {} { tail := 1 })
  have tails := (List.append_inj' bytes (by simp [bytes32])).2
  rw [reportTraps, reportTraps, reportLoop_tail, reportLoop_tail] at tails
  exact absurd tails (by decide)

/-- Sorting takes every entry of the result from a place in the buffer. -/
theorem topFunc_entry (table : Table) (top : ProcList) : ∃ src : Equiv.Perm Nat,
    (∀ k, src k < nproc ↔ k < nproc) ∧
    ∀ k, (topFunc table top).processes k = (topFilled table top).processes (src k) := by
  obtain ⟨src, fixed, moved⟩ := (sortUpTo_rearranges ProcInfo.ticks
    (topFilled table top).processes (topFilled table top).count).rearranges
  have most : (topFilled table top).count ≤ nproc := by
    rw [topFilled_count]
    exact inUse_length table
  refine ⟨src, fun k => ⟨fun lt => ?_, fun lt => ?_⟩, moved⟩
  · by_contra out
    rw [fixed k (by omega)] at lt
    exact out lt
  · by_contra out
    have same := src.injective (fixed (src k) (by omega))
    omega

/-- What `top_func` copies out does not depend on it exactly if the table is full. -/
theorem sysTopFunc_discloses :
    (∀ ktop ktop', sysTopFunc none table ktop = sysTopFunc none table ktop') ↔
      ∀ p, (table p).state ≠ .unused := by
  constructor
  · -- The entry of a free slot is the old one, and sorting moves it to a place that is copied out.
    intro same p unused
    have bytes := ProcList.bytes_inj (Option.some.inj (same (markedWith 9) (markedWith 10)))
    obtain ⟨src, range, moved⟩ := topFunc_entry table (markedWith 9)
    obtain ⟨source', range', moved'⟩ := topFunc_entry table (markedWith 10)
    have lt : src.symm p < nproc := by
      rw [← range, Equiv.apply_symm_apply]
      exact p.isLt
    have states := List.head_eq_of_cons_eq (ProcInfo.bytes_inj (bytes _ lt)).1
    rw [moved, moved', Equiv.apply_symm_apply, topFilled_entry, if_pos unused,
      topFilled_entry table _ ⟨_, (range' _).mpr lt⟩] at states
    split at states
    · exact absurd (show (9 : UInt32).toUInt8 = (10 : UInt32).toUInt8 from states) (by decide)
    have small := procInfo_state table ⟨_, (range' _).mpr lt⟩
    have bits : 9 = (procInfo table _).state.toNat % 256 := congrArg UInt8.toNat states
    have less : (procInfo table _).state.toNat < 9 := small
    omega
  intro full ktop ktop'
  have filled : ∀ k, k < nproc →
      (topFilled table ktop).processes k = (topFilled table ktop').processes k := by
    intro k lt
    have entry := fun top => topFilled_entry table top ⟨k, lt⟩
    rw [entry ktop, entry ktop', if_neg (full _), if_neg (full _)]
  refine congrArg some (ProcList.bytes_congr ?_ fun k lt => ?_)
  · exact (topFilled_count table ktop).trans (topFilled_count table ktop').symm
  change sortUpTo _ _ _ k = sortUpTo _ _ _ k
  rw [topFilled_count, topFilled_count]
  apply sortUpTo_congr ProcInfo.ticks filled _ _ k lt
  exact inUse_length table

/-- When the bytes that the three calls copy out do not depend on what was on the kernel stack:
for `child_processes` only if the call does not return, for `report_traps` never, and for
`top_func` exactly if every slot is in use. -/
theorem reports_independent (table : Table) (list : ReportList) (caller : ProcId) :
    ((∀ kcps kcps', sysChildProcesses none table caller kcps =
        sysChildProcesses none table caller kcps') ↔
      sysChildProcesses none table caller {} = none) ∧
    (¬ ∀ kreptraps kreptraps', sysReportTraps none list table caller kreptraps =
      sysReportTraps none list table caller kreptraps') ∧
    ((∀ ktop ktop', sysTopFunc none table ktop = sysTopFunc none table ktop') ↔
      ∀ p, (table p).state ≠ .unused) :=
  ⟨sysChildProcesses_disclose, sysReportTraps_discloses list, sysTopFunc_discloses⟩

/-- A buffer whose bytes are not all zero: every entry has a pid and a tick count. -/
def dirtyList : ProcList where
  processes := fun _ => { pid := 7, usage := ⟨9, 0, 0, 0, 0⟩ }

/-- With a full table `top_func` discloses nothing. -/
theorem reports_independent_full : sysTopFunc none (fun _ => { state := .running }) dirtyList =
    sysTopFunc none (fun _ => { state := .running }) {} :=
  (reports_independent (fun _ => { state := .running }) {} 0).2.2.mpr (fun _ => by decide) _ _

/-- A buffer for reports with nonzero bytes in every entry. -/
def dirtyTraps : ReportTraps where
  reports := fun _ => { sepc := 7 }

/-- With two processes and no trap reported, every call copies out bytes of the kernel stack. -/
theorem reports_disclose_stack :
    sysChildProcesses none packedTable 1 {} ≠ sysChildProcesses none packedTable 1 dirtyList ∧
      sysReportTraps none {} packedTable 1 {} ≠ sysReportTraps none {} packedTable 1 dirtyTraps ∧
      sysTopFunc none packedTable {} ≠ sysTopFunc none packedTable dirtyList := by
  decide +kernel

end Reports

end CustomXv6

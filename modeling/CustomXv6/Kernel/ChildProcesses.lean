/-
Module: CustomXv6.Kernel.ChildProcesses
Purpose: child_processes(), is_father() and set_cpu_quota() (kernel/proc.c).
Trusted boundary: human-reviewed spec
Main exports: Reports.childProcesses_subtree, childProcesses_not_null,
  Reports.setCpuQuota_children
-/
import CustomXv6.Kernel.Lineage
import CustomXv6.Kernel.Reports

namespace CustomXv6

open Transition
open Function

namespace Reports

variable {table : Table} {caller p q r : ProcId} {k : Nat}

/-! ### The walk up the parents -/

/-- The process is `r` or one of its descendants; nobody is above pid 1. -/
inductive Descends (table : Table) (r : ProcId) : ProcId → Prop where
  | self : Descends table r r
  | up {p q : ProcId} (notInit : (table p).pid ≠ 1) (parent : (table p).parent = some q)
      (above : Descends table r q) : Descends table r p

/-- The process is `k` generations below the first one with pid 1. -/
inductive Depth (table : Table) : Nat → ProcId → Prop where
  | init {p : ProcId} (isInit : (table p).pid = 1) : Depth table 0 p
  | up {k : Nat} {p q : ProcId} (notInit : (table p).pid ≠ 1)
      (parent : (table p).parent = some q) (above : Depth table k q) : Depth table (k + 1) p

theorem Depth.unique (depth : Depth table k p) : ∀ {j}, Depth table j p → k = j := by
  induction depth with
  | init isInit =>
    intro j other
    cases other with
    | init => rfl
    | up notInit => exact absurd isInit notInit
  | up notInit parent _ ih =>
    intro j other
    cases other with
    | init isInit => exact absurd isInit notInit
    | up _ parent' above =>
      cases parent.symm.trans parent'
      rw [ih above]

theorem Depth.lower (depth : Depth table k p) : ∀ i ≤ k, ∃ q, Depth table i q := by
  induction depth with
  | @init p isInit =>
    intro i within
    rw [Nat.le_zero.mp within]
    exact ⟨p, .init isInit⟩
  | @up _ p _ notInit parent above ih =>
    intro i within
    rcases Nat.le_or_eq_of_le_succ within with less | rfl
    · exact ih i less
    · exact ⟨p, .up notInit parent above⟩

/-- The slots on the way up are different, so there are at most `nproc` of them. -/
theorem Depth.lt_nproc (depth : Depth table k p) : k < nproc := by
  choose slot found using fun i : Fin (k + 1) => depth.lower i (Nat.le_of_lt_succ i.isLt)
  have injective : Function.Injective slot := by
    intro i j same
    have same' := found j
    rw [← same] at same'
    exact Fin.ext ((found i).unique same')
  have fewer := Fintype.card_le_of_injective slot injective
  rwa [Fintype.card_fin, Fintype.card_fin] at fewer

theorem Descends.depth (descends : Descends table r p) (isInit : (table r).pid = 1) :
    ∃ k, Depth table k p := by
  induction descends with
  | self => exact ⟨0, .init isInit⟩
  | up notInit parent _ ih =>
    obtain ⟨k, depth⟩ := ih
    exact ⟨k + 1, .up notInit parent depth⟩

/-- `is_father` returns, and says whether a process with that pid is met on the way
up to pid 1. -/
theorem isFather_spec (fatherId : Int32) (depth : Depth table k p) : ∀ {fuel}, k < fuel →
    ∃ found, isFather table fatherId fuel p = some found ∧
      (found = true ↔ ∃ r, Descends table r p ∧ (table r).pid = fatherId) := by
  induction depth with
  | @init p isInit =>
    intro fuel enough
    obtain ⟨_, rfl⟩ := Nat.exists_eq_add_one.mpr enough
    by_cases same : fatherId = (table p).pid
    · exact ⟨true, if_pos same, iff_of_true rfl ⟨p, .self, same.symm⟩⟩
    refine ⟨false, by rw [isFather, if_neg same, if_pos isInit], iff_of_false (by decide) ?_⟩
    rintro ⟨r, descends, samePid⟩
    cases descends with
    | self => exact same samePid.symm
    | up notInit => exact notInit isInit
  | @up _ p _ notInit parent _ ih =>
    intro _ enough
    obtain ⟨_, rfl⟩ := Nat.exists_eq_add_one.mpr (Nat.zero_lt_of_lt enough)
    by_cases same : fatherId = (table p).pid
    · exact ⟨true, if_pos same, iff_of_true rfl ⟨p, .self, same.symm⟩⟩
    obtain ⟨found, walked, means⟩ := ih (Nat.lt_of_succ_lt_succ enough)
    refine ⟨found, by rw [isFather, if_neg same, if_neg notInit, parent]; exact walked, ?_⟩
    rw [means]
    constructor
    · rintro ⟨r, descends, samePid⟩
      exact ⟨r, .up notInit parent descends, samePid⟩
    rintro ⟨r, descends, samePid⟩
    cases descends with
    | self => exact absurd samePid.symm same
    | up _ parent' above' =>
      cases parent.symm.trans parent'
      exact ⟨r, above', samePid⟩

/-! ### The loop over the table -/

/-- The record is that of the slot. -/
structure Describes (table : Table) (p : ProcId) (info : ProcInfo) : Prop where
  pid : info.pid = (table p).pid
  state : info.state = stateNumber (table p).state
  name : info.name = strncpy (table p).name
  ppid : ∃ father, (table p).parent = some father ∧ info.ppid = (table father).pid

/-- The entries of a list that count. -/
def ProcList.entries (cps : ProcList) : List ProcInfo := (List.range cps.count).map cps.processes

/-- What keeps `child_processes` from a fault: the walk from every slot in use ends,
and a slot that is reported has a parent. -/
def Walkable (table : Table) (fatherPid : Int32) : Prop :=
  ∀ p, (table p).state ≠ .unused → ∃ found, isFather table fatherPid nproc p = some found ∧
    (found = true → (table p).parent ≠ none)

/-- The loop appends one record for each slot it finds. -/
theorem childLoop_spec (walkable : Walkable table (table caller).pid) (slots : List ProcId) :
    ∀ cps : ProcList, ∃ cps' infos,
      slots.foldlM (childEntry table (table caller).pid) cps = some cps' ∧
      cps'.entries = cps.entries ++ infos ∧
      List.Forall₂ (Describes table) (children table caller slots) infos := by
  induction slots with
  | nil => exact fun cps => ⟨cps, [], rfl, (List.append_nil _).symm, .nil⟩
  | cons p rest ih =>
    intro cps
    rw [List.foldlM_cons]
    by_cases unused : (table p).state = .unused
    · have skipped : children table caller (p :: rest) = children table caller rest := by
        simp [children, unused]
      rw [childEntry, if_pos unused, skipped]
      exact ih cps
    obtain ⟨found, walked, hasParent⟩ := walkable p unused
    cases found with
    | false =>
      have skipped : children table caller (p :: rest) = children table caller rest := by
        simp [children, walked]
      rw [childEntry, if_neg unused, walked, skipped]
      exact ih cps
    | true =>
      obtain ⟨father, parent⟩ := Option.ne_none_iff_exists'.mp (hasParent rfl)
      have taken : children table caller (p :: rest) = p :: children table caller rest := by
        simp [children, unused, walked]
      simp only [childEntry, if_neg unused, walked, parent, taken]
      let info : ProcInfo :=
        { cps.processes cps.count with
          pid := (table p).pid
          state := stateNumber (table p).state
          name := strncpy (table p).name
          ppid := (table father).pid }
      have describes : Describes table p info := ⟨rfl, rfl, rfl, father, parent, rfl⟩
      obtain ⟨cps', infos, looped, entries, described⟩ := ih
        { count := cps.count + 1, processes := update cps.processes cps.count info }
      refine ⟨cps', info :: infos, looped, ?_, .cons describes described⟩
      have old : (List.range cps.count).map (update cps.processes cps.count info) = cps.entries :=
        List.map_congr_left fun i lt =>
          update_of_ne (Nat.ne_of_lt (List.mem_range.mp lt)) _ _
      rw [entries, ProcList.entries, List.range_succ, List.map_append, old, List.append_assoc]
      exact congrArg (fun info => cps.entries ++ (info :: infos)) (update_self _ _ _)

/-! ### The subtree of the caller -/

/-- The processes form a tree below the one with pid 1. -/
structure TableTree (table : Table) : Prop where
  distinct : ∀ p q, (table p).state ≠ .unused → (table q).state ≠ .unused →
    (table p).pid = (table q).pid → p = q
  parentUsed : ∀ p q, (table p).state ≠ .unused → (table p).pid ≠ 1 →
    (table p).parent = some q → (table q).state ≠ .unused
  rooted : ∀ p, (table p).state ≠ .unused → ∃ r, Descends table r p ∧ (table r).pid = 1

theorem TableTree.used (tree : TableTree table) (descends : Descends table r p) :
    (table p).state ≠ .unused → (table r).state ≠ .unused := by
  induction descends with
  | self => exact id
  | up notInit parent _ ih =>
    exact fun used => ih (tree.parentUsed _ _ used notInit parent)

theorem TableTree.isFather (tree : TableTree table) (callerUsed : (table caller).state ≠ .unused)
    (used : (table p).state ≠ .unused) :
    ∃ found, Reports.isFather table (table caller).pid nproc p = some found ∧
      (found = true ↔ Descends table caller p) := by
  obtain ⟨_, reaches, isInit⟩ := tree.rooted p used
  obtain ⟨_, depth⟩ := reaches.depth isInit
  obtain ⟨found, walked, means⟩ := isFather_spec (table caller).pid depth depth.lt_nproc
  refine ⟨found, walked, means.trans ⟨?_, fun descends => ⟨caller, descends, rfl⟩⟩⟩
  rintro ⟨r, descends, same⟩
  rwa [← tree.distinct r caller (tree.used descends used) callerUsed same]

/-- `child_processes`, called by a process other than pid 1, reports the slots in use that
hold the caller or one of its descendants, in table order and each once. -/
theorem childProcesses_subtree (tree : TableTree table)
    (callerUsed : (table caller).state ≠ .unused) (notInit : (table caller).pid ≠ 1)
    (cps : ProcList) :
    ∃ cps' slots, childProcesses table caller cps = some cps' ∧ slots.Pairwise (· < ·) ∧
      (∀ p, p ∈ slots ↔ (table p).state ≠ .unused ∧ Descends table caller p) ∧
      List.Forall₂ (Describes table) slots ((List.range cps'.count).map cps'.processes) := by
  have walkable : Walkable table (table caller).pid := by
    intro p used
    obtain ⟨found, walked, means⟩ := tree.isFather callerUsed used
    refine ⟨found, walked, fun isTrue => ?_⟩
    cases means.mp isTrue with
    | self =>
      obtain ⟨_, reaches, isInit⟩ := tree.rooted caller callerUsed
      cases reaches with
      | self => exact absurd isInit notInit
      | up _ parent => exact parent ▸ Option.some_ne_none _
    | up _ parent => exact parent ▸ Option.some_ne_none _
  obtain ⟨cps', infos, called, entries, described⟩ :=
    childLoop_spec walkable (List.finRange nproc) { cps with count := 0 }
  rw [← show cps'.entries = infos from entries] at described
  refine ⟨cps', _, called, (List.pairwise_lt_finRange nproc).filter _, fun p => ?_, described⟩
  rw [List.mem_filter, decide_eq_true_eq]
  constructor
  · rintro ⟨_, used, isChild⟩
    obtain ⟨_, walked, means⟩ := tree.isFather callerUsed used
    cases walked.symm.trans isChild
    exact ⟨used, means.mp rfl⟩
  · rintro ⟨used, descends⟩
    obtain ⟨_, walked, means⟩ := tree.isFather callerUsed used
    rw [means.mpr descends] at walked
    exact ⟨List.mem_finRange p, used, walked⟩

/-- The first process has the children 2 and 4, and 3 is a child of 2. -/
def familyTable : Table := fun p =>
  if p = 0 then { state := .sleeping, pid := 1 }
  else if p = 1 then { state := .running, pid := 2, parent := some 0 }
  else if p = 2 then { state := .runnable, pid := 3, parent := some 1 }
  else if p = 3 then { state := .runnable, pid := 4, parent := some 0 }
  else {}

theorem familyTable_tree : TableTree familyTable where
  distinct := by decide +kernel
  parentUsed := by decide +kernel
  rooted := by
    intro p used
    have slot : p = 0 ∨ p = 1 ∨ p = 2 ∨ p = 3 := by
      revert p
      decide +kernel
    rcases slot with rfl | rfl | rfl | rfl
    · exact ⟨0, .self, rfl⟩
    · exact ⟨0, .up (by decide) rfl .self, rfl⟩
    · exact ⟨0, .up (by decide) rfl (.up (by decide) rfl .self), rfl⟩
    · exact ⟨0, .up (by decide) rfl .self, rfl⟩

/-- Process 2 finds itself and its child, and not the other child of the first process. -/
theorem childProcesses_subtree_family :
    ∃ cps' slots, childProcesses familyTable 1 {} = some cps' ∧
      1 ∈ slots ∧ 2 ∈ slots ∧ 3 ∉ slots ∧
      List.Forall₂ (Describes familyTable) slots
        ((List.range cps'.count).map cps'.processes) := by
  obtain ⟨cps', slots, called, _, members, described⟩ :=
    childProcesses_subtree familyTable_tree (show (familyTable 1).state ≠ .unused by decide)
      (by decide) {}
  refine ⟨cps', slots, called, (members 1).mpr ⟨by decide, .self⟩,
    (members 2).mpr ⟨by decide, .up (by decide) rfl .self⟩, fun found => ?_, described⟩
  cases ((members 3).mp found).2 with
  | up _ parent rest =>
    cases parent
    cases rest with
    | up notInit => exact notInit rfl

end Reports

/-! ### The walk in steps -/

namespace Reports

/-- Where `child_processes` is.  It holds no lock between two of these points, so other CPUs can
do anything there. -/
inductive WalkPc where
  /-- The loop has reached entry `k`. -/
  | slot (k : ProcId)
  /-- In `is_father(father_pid, p)`, called for entry `k`, before `acquire(&p->lock)`. -/
  | isFather (k p : ProcId)
  /-- There, before `acquire(&wait_lock)`. -/
  | parent (k p : ProcId)
  /-- Before `acquire(&p->lock)` for an entry that is reported. -/
  | entry (k : ProcId)
  /-- Before `acquire(&wait_lock)` for it. -/
  | father (k : ProcId)
  /-- Before `acquire(&father->lock)`. -/
  | ppid (k father : ProcId)
  | done
  /-- `acquire` through a null pointer. -/
  | fault
deriving DecidableEq

/-- A call of `child_processes`; `steps` counts its steps. -/
structure Walk where
  fatherPid : Int32
  pc : WalkPc
  cps : ProcList
  steps : Nat

namespace Walk

def start (fatherPid : Int32) (cps : ProcList) : Walk :=
  { fatherPid := fatherPid, pc := .slot 0, cps := { cps with count := 0 }, steps := 0 }

def moves (w : Walk) (pc : WalkPc) : Walk := { w with pc := pc, steps := w.steps + 1 }

/-- A store into the entry with the number `count`. -/
def stores (w : Walk) (change : ProcInfo → ProcInfo) : Walk :=
  { w with
    cps := { w.cps with
      processes := update w.cps.processes w.cps.count (change (w.cps.processes w.cps.count)) } }

/-- The head of the loop. -/
def loopPc (i : Nat) : WalkPc :=
  if lt : i < nproc then .slot ⟨i, lt⟩ else .done

/-- The next access of `child_processes` to the table. -/
def step (table : Table) (w : Walk) : Option Walk :=
  match w.pc with
  | .slot k => some (w.moves (if (table k).state = .unused then loopPc (k + 1) else .isFather k k))
  | .isFather k p =>
    some (w.moves
      (if w.fatherPid = (table p).pid then .entry k
      else if (table p).pid = 1 then loopPc (k + 1)
      else .parent k p))
  | .parent k p =>
    some (w.moves (match (table p).parent with
      | none => .fault
      | some parent => .isFather k parent))
  | .entry k =>
    some ((w.stores fun info =>
      { info with pid := (table k).pid, state := stateNumber (table k).state }).moves (.father k))
  | .father k =>
    some ((w.stores fun info => { info with name := strncpy (table k).name }).moves
      (match (table k).parent with
      | none => .fault
      | some father => .ppid k father))
  | .ppid k father =>
    let filled := w.stores fun info => { info with ppid := (table father).pid }
    some ({ filled with cps := { filled.cps with count := w.cps.count + 1 } }.moves (loopPc (k + 1)))
  | .done => none
  | .fault => none

end Walk

/-! ### The walk on a table that does not change -/

/-- The walk gets from one point to another. -/
def Walk.Reaches (table : Table) (w : Walk) (pc : WalkPc) (cps : ProcList) : Prop :=
  ∃ w', Relation.ReflTransGen (fun w w' : Walk => w.step table = some w') w w' ∧
    w'.fatherPid = w.fatherPid ∧ w'.pc = pc ∧ w'.cps = cps

theorem Walk.Reaches.head {w w' : Walk} {pc : WalkPc} {cps : ProcList}
    (stepped : w.step table = some w') (same : w'.fatherPid = w.fatherPid)
    (reaches : w'.Reaches table pc cps) : w.Reaches table pc cps := by
  obtain ⟨last, run, pid, atPc, has⟩ := reaches
  exact ⟨last, .head stepped run, pid.trans same, atPc, has⟩

theorem Walk.reaches_isFather {fuel : Nat} {found : Bool} {pc : WalkPc} {cps : ProcList} :
    ∀ {w : Walk} {p : ProcId}, w.pc = .isFather k p →
      Reports.isFather table w.fatherPid fuel p = some found →
      (∀ w' : Walk, w'.fatherPid = w.fatherPid → w'.cps = w.cps →
        w'.pc = (if found then .entry k else loopPc (k + 1)) → w'.Reaches table pc cps) →
      w.Reaches table pc cps := by
  induction fuel with
  | zero => exact fun _ absurd => by cases absurd
  | succ fuel ih =>
    intro w p atP walked goesOn
    rw [Reports.isFather] at walked
    have stepped : w.step table = some (w.moves
        (if w.fatherPid = (table p).pid then .entry k
        else if (table p).pid = 1 then loopPc (k + 1) else .parent k p)) := by rw [step, atP]
    refine .head stepped rfl ?_
    split at walked
    · rename_i isIt
      cases walked
      exact goesOn _ rfl rfl (if_pos isIt)
    rename_i notIt
    split at walked
    · rename_i isInit
      cases walked
      exact goesOn _ rfl rfl ((if_neg notIt).trans (if_pos isInit))
    rename_i notInit
    split at walked
    · cases walked
    rename_i parent isParent
    rw [if_neg notIt, if_neg notInit]
    have up : (w.moves (.parent k p)).step table =
        some ((w.moves (.parent k p)).moves (.isFather k parent)) := by
      rw [step]
      dsimp only [moves]
      rw [isParent]
    exact .head up rfl (ih rfl walked goesOn)

/-- One round of the loop. -/
theorem Walk.reaches_slot {w : Walk} {cps cps' : ProcList} {pc : WalkPc} (atK : w.pc = .slot k)
    (round : childEntry table w.fatherPid w.cps k = some cps')
    (goesOn : ∀ w' : Walk, w'.fatherPid = w.fatherPid → w'.cps = cps' → w'.pc = loopPc (k + 1) →
      w'.Reaches table pc cps) : w.Reaches table pc cps := by
  have stepped : w.step table =
      some (w.moves (if (table k).state = .unused then loopPc (k + 1) else .isFather k k)) := by
    rw [step, atK]
  refine .head stepped rfl ?_
  rw [childEntry] at round
  split at round
  · rename_i unused
    cases round
    exact goesOn _ rfl rfl (if_pos unused)
  rename_i used
  rw [if_neg used]
  split at round
  · cases round
  · rename_i walked
    cases round
    exact reaches_isFather rfl walked goesOn
  rename_i walked
  split at round
  · cases round
  rename_i father isParent
  refine reaches_isFather rfl walked fun w' pid same atEntry => ?_
  cases round
  have first : w'.step table = some ((w'.stores fun info =>
      { info with pid := (table k).pid, state := stateNumber (table k).state }).moves
        (.father k)) := by
    rw [step, show w'.pc = .entry k from atEntry]
  refine .head first rfl ?_
  generalize filled : w'.stores _ = w₁
  have second : (w₁.moves (.father k)).step table = some (((w₁.moves (.father k)).stores
      fun info => { info with name := strncpy (table k).name }).moves (.ppid k father)) := by
    rw [step]
    dsimp only [moves]
    rw [isParent]
  refine .head second rfl (.head rfl rfl (goesOn _ ?_ ?_ rfl))
  · subst filled
    exact pid
  · subst filled
    simp [moves, stores, same]

/-- On a table that does not change, the walk ends with what `childProcesses` gives. -/
theorem Walk.reaches_done {cps cps' : ProcList}
    (called : childProcesses table caller cps = some cps') :
    (start (table caller).pid cps).Reaches table .done cps' := by
  have loop : ∀ left i, i + left = nproc → ∀ w : Walk, w.pc = loopPc i →
      w.fatherPid = (table caller).pid →
      ((List.finRange nproc).drop i).foldlM (childEntry table (table caller).pid) w.cps =
        some cps' → w.Reaches table .done cps' := by
    intro left
    induction left with
    | zero =>
      intro i last w atEnd _ ran
      rw [List.drop_of_length_le (by rw [List.length_finRange]; omega)] at ran
      exact ⟨w, .refl, rfl, atEnd.trans (dif_neg (by omega)), Option.some.inj ran⟩
    | succ left ih =>
      intro i ahead w atI pid ran
      rw [List.drop_eq_getElem_cons (by rw [List.length_finRange]; omega), List.foldlM_cons,
        List.getElem_finRange] at ran
      obtain ⟨cps₁, round, rest⟩ := Option.bind_eq_some_iff.mp ran
      rw [← pid] at round
      refine reaches_slot (atI.trans (dif_pos (by omega))) round fun w' same has atNext => ?_
      exact ih (i + 1) (by omega) w' atNext (same.trans pid) (by rw [has]; exact rest)
  exact loop nproc 0 (Nat.zero_add _) _ rfl rfl called

end Reports

section NullParents

open Reports

variable {n : Nat}

/-- The process table as `child_processes` reads it; the kernel does not have the names. -/
def Kernel.table (s : Kernel n) (name : ProcId → ProcName) : Table := fun p =>
  { state := (s.procs p).state
    pid := Int32.ofInt (s.procs p).pid
    parent := (s.procs p).parent
    name := name p }

/-- The kernel with a call of `child_processes` under way on one of its CPUs. -/
structure WalkSys (n : Nat) where
  kernel : Kernel n
  walk : Walk

inductive WalkAction (n : Nat) where
  | kernel (act : Action n)
  | walk

def WalkAction.threadCall : WalkAction n → Bool
  | .kernel act => act.threadCall
  | .walk => false

namespace WalkSys

def step (name : ProcId → ProcName) (s : WalkSys n) : WalkAction n → Option (WalkSys n)
  | .kernel act => (s.kernel.step act).map fun kernel => { s with kernel := kernel }
  | .walk => (s.walk.step (s.kernel.table name)).map fun walk => { s with walk := walk }

/-- `wait` frees an entry. -/
def reaps (s : WalkSys n) (act : Action n) : Bool :=
  (s.kernel.step act).any fun kernel =>
    decide (∃ p, (s.kernel.procs p).state ≠ .unused ∧ (kernel.procs p).state = .unused)

/-- The loop has reached an entry that is `USED` and has no parent yet. -/
def meetsUnborn (s : WalkSys n) : Bool :=
  decide (∃ k, s.walk.pc = .slot k ∧ (s.kernel.procs k).state = .used ∧
    (s.kernel.procs k).parent = none)

/-- No entry is freed during the walk, and none is looked at between its `allocproc` and the
store of its parent. -/
def undisturbed (s : WalkSys n) : WalkAction n → Bool
  | .kernel act => !act.threadCall && !s.reaps act
  | .walk => !s.meetsUnborn

end WalkSys

/-! ### The walk among the steps of the kernel -/

namespace Kernel

/-- The process is in use and has its parent. -/
def HasParent (s : Kernel n) (p : ProcId) : Prop :=
  (s.procs p).state ≠ .unused ∧ (s.procs p).parent ≠ none

/-- How many processes are older than `p`. -/
def rank (s : Kernel n) (p : ProcId) : Nat :=
  (Finset.univ.filter fun q =>
    (s.procs q).state ≠ .unused ∧ (s.procs q).pid < (s.procs p).pid).card

/-- What holds of the entries that the walk refers to. -/
def Follows (s : Kernel n) : WalkPc → Prop
  | .slot _ => True
  | .isFather k p => (p = s.initproc ∨ s.HasParent p) ∧ (k = p ∨ s.HasParent k)
  | .parent k p => s.HasParent k ∧ s.HasParent p
  | .entry k => s.HasParent k
  | .father k => s.HasParent k
  | .ppid _ _ => True
  | .done => True
  | .fault => False

/-- How many steps the walk takes at most from there. -/
def left (s : Kernel n) : WalkPc → Nat
  | .slot k => (nproc - k) * (2 * nproc + 3)
  | .isFather k p => (nproc - (k + 1)) * (2 * nproc + 3) + (2 * s.rank p + 4)
  | .parent k p => (nproc - (k + 1)) * (2 * nproc + 3) + (2 * s.rank p + 3)
  | .entry k => (nproc - (k + 1)) * (2 * nproc + 3) + 3
  | .father k => (nproc - (k + 1)) * (2 * nproc + 3) + 2
  | .ppid k _ => (nproc - (k + 1)) * (2 * nproc + 3) + 1
  | .done => 0
  | .fault => 0

variable {s s' : Kernel n} {p q : ProcId}

theorem rank_lt_nproc (s : Kernel n) (p : ProcId) : s.rank p < nproc := by
  have notOwn : p ∉ Finset.univ.filter fun q =>
      (s.procs q).state ≠ .unused ∧ (s.procs q).pid < (s.procs p).pid := by simp
  have fewer := Finset.card_lt_univ_of_notMem notOwn
  rwa [Fintype.card_fin] at fewer

theorem rank_lt (inUse : (s.procs q).state ≠ .unused) (older : (s.procs q).pid < (s.procs p).pid) :
    s.rank q < s.rank p := by
  apply Finset.card_lt_card
  refine ⟨fun r mem => ?_, fun subset => ?_⟩
  · simp only [Finset.mem_filter, Finset.mem_univ, true_and] at mem ⊢
    exact ⟨mem.1, mem.2.trans older⟩
  · have own := subset (x := q) (by simpa using ⟨inUse, older⟩)
    simp at own

theorem left_loopPc (s : Kernel n) (i : Nat) :
    s.left (Walk.loopPc i) = (nproc - i) * (2 * nproc + 3) := by
  rw [Walk.loopPc]
  split
  · rfl
  · rw [Nat.sub_eq_zero_of_le (by omega), Nat.zero_mul]
    rfl

theorem follows_loopPc (s : Kernel n) (i : Nat) : s.Follows (Walk.loopPc i) := by
  rw [Walk.loopPc]
  split <;> trivial

section Steps

variable (lineage : s.Lineage) {act : Action n} (leavesCpu : s.reenters act = false)
  (stepped : s.step act = some s')
  (stays : ∀ p, (s.procs p).state ≠ .unused → (s'.procs p).state ≠ .unused)
include lineage leavesCpu stepped stays

theorem HasParent.step (has : s.HasParent p) : s'.HasParent p := by
  have after := stays p has.1
  refine ⟨after, (lineage.step leavesCpu stepped).2.parent_kept has.2 ?_⟩
  exact fun free => after (ProcState.stage_free.mp free)

/-- A process that is made during the walk is younger than all the others. -/
theorem rank_step (inUse : (s.procs p).state ≠ .unused) : s'.rank p ≤ s.rank p := by
  have family := (lineage.step leavesCpu stepped).2
  have notFree : ∀ {s : Kernel n} {q}, (s.procs q).state ≠ .unused → s.family.stage q ≠ .free :=
    fun used free => used (ProcState.stage_free.mp free)
  apply Finset.card_le_card
  intro q mem
  simp only [Finset.mem_filter, Finset.mem_univ, true_and] at mem ⊢
  obtain ⟨used, older⟩ := mem
  have pid : (s'.procs p).pid = (s.procs p).pid :=
    family.pid_kept (notFree inUse) (notFree (stays p inUse))
  rw [pid] at older
  by_cases pre : (s.procs q).state = .unused
  · have new : (s'.procs q).pid = s.nextpid :=
      family.pid_new lineage.family.forks (ProcState.stage_free.mpr pre) (notFree used)
    have bound := lineage.pids.bound p
    omega
  · have same : (s'.procs q).pid = (s.procs q).pid :=
      family.pid_kept (notFree pre) (notFree used)
    exact ⟨pre, same ▸ older⟩

theorem Follows.step {pc : WalkPc} (follows : s.Follows pc) : s'.Follows pc := by
  have has : ∀ {p}, s.HasParent p → s'.HasParent p := fun has =>
    has.step lineage leavesCpu stepped stays
  cases pc with
  | isFather k p =>
    refine ⟨follows.1.imp ?_ has, follows.2.imp_right has⟩
    rw [(step_globals stepped).2]
    exact id
  | parent => exact ⟨has follows.1, has follows.2⟩
  | entry => exact has follows
  | father => exact has follows
  | slot => trivial
  | ppid => trivial
  | done => trivial
  | fault => exact follows

theorem left_step {pc : WalkPc} (follows : s.Follows pc) : s'.left pc ≤ s.left pc := by
  have rank : ∀ {p}, (s.procs p).state ≠ .unused → s'.rank p ≤ s.rank p := fun inUse =>
    rank_step lineage leavesCpu stepped stays inUse
  cases pc with
  | isFather k p =>
    have inUse : (s.procs p).state ≠ .unused := by
      rcases follows.1 with rfl | has
      · exact lineage.tree.init.1
      · exact has.1
    have less := rank inUse
    simp only [left]
    omega
  | parent k p =>
    have less := rank follows.2.1
    simp only [left]
    omega
  | _ => exact Nat.le_refl _

end Steps

end Kernel

/-- The parent of a process is the first process or has a parent, and is older. -/
theorem Kernel.Lineage.parent_follows {s : Kernel n} (lineage : s.Lineage) {p q : ProcId}
    (isParent : (s.procs p).parent = some q) :
    (q = s.initproc ∨ s.HasParent q) ∧ s.rank q < s.rank p := by
  have tree := lineage.family.tree
  have live : s.family.stage q = .live := tree.parentLive p q isParent
  have inUse : (s.procs q).state ≠ .unused := by
    intro unused
    rw [show s.family.stage q = _ from ProcState.stage_free.mpr unused] at live
    cases live
  refine ⟨?_, Kernel.rank_lt inUse (tree.order p q isParent)⟩
  by_cases isInit : q = s.initproc
  · exact .inl isInit
  · exact .inr ⟨inUse, tree.hasParent q (.inl live) isInit⟩

/-- So is an entry in use that is set up. -/
theorem Kernel.Lineage.slot_follows {s : Kernel n} (lineage : s.Lineage) {k : ProcId}
    (used : (s.procs k).state ≠ .unused)
    (born : (s.procs k).state = .used → (s.procs k).parent ≠ none) :
    k = s.initproc ∨ s.HasParent k := by
  by_cases isInit : k = s.initproc
  · exact .inl isInit
  refine .inr ⟨used, ?_⟩
  by_cases isUsed : (s.procs k).state = .used
  · exact born isUsed
  · exact lineage.tree.stored k used isUsed isInit

/-- A step of the walk that does not meet an entry without a parent goes on, and gets nearer to
its end. -/
theorem Kernel.Lineage.walk_step {s : Kernel n} (lineage : s.Lineage) {name : ProcId → ProcName}
    {w w' : Walk} (notInit : w.fatherPid ≠ 1) (follows : s.Follows w.pc)
    (born : ∀ k, w.pc = .slot k → (s.procs k).state = .used → (s.procs k).parent ≠ none)
    (stepped : w.step (s.table name) = some w') :
    w'.fatherPid = w.fatherPid ∧ w'.steps = w.steps + 1 ∧ s.Follows w'.pc ∧
      s.left w'.pc < s.left w.pc := by
  have after : ∀ (k : ProcId), nproc - k = nproc - (k + 1) + 1 := fun k => by omega
  have initPid : (s.table name s.initproc).pid = 1 := congrArg Int32.ofInt lineage.tree.init.2.1
  have child : ∀ {p}, p = s.initproc ∨ s.HasParent p → (s.table name p).pid ≠ 1 →
      s.HasParent p := by
    rintro p (rfl | has) other
    · exact absurd initPid other
    · exact has
  rw [Walk.step] at stepped
  split at stepped
  · rename_i k atK
    cases stepped
    refine ⟨rfl, rfl, ?_⟩
    dsimp only [Walk.moves]
    rw [atK]
    split
    · rw [Kernel.left_loopPc]
      simp only [Kernel.left, after k, Nat.add_mul]
      exact ⟨s.follows_loopPc _, by omega⟩
    rename_i used
    refine ⟨⟨lineage.slot_follows used (born k atK), .inl rfl⟩, ?_⟩
    have fewer := s.rank_lt_nproc k
    simp only [Kernel.left, after k, Nat.add_mul]
    omega
  · rename_i k p atP
    rw [atP] at follows
    cases stepped
    refine ⟨rfl, rfl, ?_⟩
    dsimp only [Walk.moves]
    rw [atP]
    have slot : s.HasParent p → s.HasParent k := by
      intro has
      rcases follows.2 with rfl | has'
      · exact has
      · exact has'
    split
    · rename_i isIt
      exact ⟨slot (child follows.1 (isIt ▸ notInit)), by simp only [Kernel.left]; omega⟩
    split
    · rw [Kernel.left_loopPc]
      simp only [Kernel.left]
      exact ⟨s.follows_loopPc _, by omega⟩
    rename_i other
    have has := child follows.1 other
    exact ⟨⟨slot has, has⟩, by simp only [Kernel.left]; omega⟩
  · rename_i k p atP
    rw [atP] at follows
    cases stepped
    refine ⟨rfl, rfl, ?_⟩
    dsimp only [Walk.moves]
    obtain ⟨q, isParent⟩ := Option.ne_none_iff_exists'.mp follows.2.2
    obtain ⟨linked, older⟩ := lineage.parent_follows isParent
    rw [atP, show (s.table name p).parent = some q from isParent]
    refine ⟨⟨linked, .inr follows.1⟩, ?_⟩
    simp only [Kernel.left]
    omega
  · rename_i k atK
    rw [atK] at follows
    cases stepped
    rw [atK]
    exact ⟨rfl, rfl, follows, Nat.lt_succ_self _⟩
  · rename_i k atK
    rw [atK] at follows
    cases stepped
    refine ⟨rfl, rfl, ?_⟩
    dsimp only [Walk.moves]
    obtain ⟨q, isParent⟩ := Option.ne_none_iff_exists'.mp follows.2
    rw [atK, show (s.table name k).parent = some q from isParent]
    exact ⟨trivial, Nat.lt_succ_self _⟩
  · rename_i k father atK
    cases stepped
    refine ⟨rfl, rfl, ?_⟩
    dsimp only [Walk.moves]
    rw [atK, Kernel.left_loopPc]
    exact ⟨s.follows_loopPc _, Nat.lt_succ_self _⟩
  · cases stepped
  · cases stepped

/-- What the system keeps during the walk. -/
structure WalkSys.Inv (s : WalkSys n) : Prop where
  lineage : s.kernel.Lineage
  single : s.kernel.Unthreaded
  notInit : s.walk.fatherPid ≠ 1
  follows : s.kernel.Follows s.walk.pc
  bounded : s.walk.steps + s.kernel.left s.walk.pc ≤ nproc * (2 * nproc + 3)

theorem WalkSys.Inv.step {name : ProcId → ProcName} {s s' : WalkSys n} {act : WalkAction n}
    (inv : s.Inv) (undisturbed : s.undisturbed act = true)
    (stepped : s.step name act = some s') : s'.Inv := by
  obtain ⟨lineage, single, notInit, follows, bounded⟩ := inv
  cases act with
  | kernel act =>
    obtain ⟨kernel, ran, rfl⟩ := Option.map_eq_some_iff.mp stepped
    simp only [WalkSys.undisturbed, WalkSys.reaps, ran, Bool.and_eq_true, Bool.not_eq_true',
      Option.any_some, decide_eq_false_iff_not, not_exists, not_and] at undisturbed
    have leavesCpu := single.leavesCpu act
    refine ⟨(lineage.step leavesCpu ran).1, single.step undisturbed.1 ran, notInit,
      follows.step lineage leavesCpu ran undisturbed.2, ?_⟩
    have less := Kernel.left_step lineage leavesCpu ran undisturbed.2 follows
    dsimp only
    omega
  | walk =>
    obtain ⟨walk, ran, rfl⟩ := Option.map_eq_some_iff.mp stepped
    obtain ⟨pid, steps, follows', less⟩ := lineage.walk_step notInit follows
      (by simpa [WalkSys.undisturbed, WalkSys.meetsUnborn] using undisturbed) ran
    refine ⟨lineage, single, pid ▸ notInit, follows', ?_⟩
    dsimp only
    omega

/-- A process other than pid 1 calls `child_processes` after any run of `fork`, `fork_deadline`,
`exit` and `wait`, and the other CPUs go on during the call.  As long as no entry is freed and
none is met between its `allocproc` and the store of its parent, it follows no null pointer and
ends after a bounded number of its steps. -/
theorem childProcesses_not_null {s : Kernel n} {s' : WalkSys n}
    (run : Run Kernel.step (fun _ act => act.threadCall = false) (boot n) s)
    (name : ProcId → ProcName) (caller : ProcId) (notInit : (s.table name caller).pid ≠ 1)
    (cps : ProcList)
    (walked : Run (WalkSys.step name) (fun s act => s.undisturbed act = true)
      { kernel := s, walk := .start (s.table name caller).pid cps } s') :
    s'.walk.pc ≠ .fault ∧ s'.walk.steps ≤ nproc * (2 * nproc + 3) ∧
      (s'.walk.pc = .done ∨ (s'.step name .walk).isSome) := by
  obtain ⟨single, leaves⟩ := unthreaded_run run
  have inv : s'.Inv := by
    refine walked.invariant ⟨reached_lineage leaves, single, notInit, trivial, ?_⟩
      fun inv undisturbed stepped => inv.step undisturbed stepped
    exact Nat.le_of_eq (Nat.zero_add _)
  have noFault : s'.walk.pc ≠ .fault := by
    intro fault
    have follows := inv.follows
    rw [fault] at follows
    exact follows
  have bounded := inv.bounded
  refine ⟨noFault, by omega, ?_⟩
  cases atPc : s'.walk.pc with
  | done => exact .inl rfl
  | fault => exact absurd atPc noFault
  | _ => exact .inr (by simp [WalkSys.step, Walk.step, atPc])

/-- The first process, on CPU `c`, has forked a child, which executes on CPU `c'`. -/
def childRuns (c c' : Fin n) : List (Action n) := traps c ++ forkOne c none ++ traps c'

def unnamed : ProcId → ProcName := fun _ => .replicate 16 0

/-- The call of `child_processes` by `caller`. -/
def WalkSys.call (s : Kernel n) (caller : ProcId) : WalkSys n :=
  { kernel := s, walk := .start (s.table unnamed caller).pid {} }

/-- The child of the first process calls `child_processes`; a timer interrupt comes during the
call. -/
theorem childProcesses_not_null_child : ∃ (s : Kernel 2) (s' : WalkSys 2),
    (s.procs 1).state = .running ∧ s'.walk.pc = .done ∧ s'.walk.cps.count = 1 ∧
      s'.kernel.ticks = 1 ∧ s'.walk.steps ≤ nproc * (2 * nproc + 3) := by
  obtain ⟨s, run, running, notInit, walks⟩ := exists_run_of_runChecked Kernel.step
    (fun _ act => act.threadCall = false) (boot 2) (childRuns 0 1)
    (P := fun s => (s.procs 1).state = .running ∧ (s.table unnamed 1).pid ≠ 1 ∧
      (runChecked (WalkSys.step unnamed) (fun s act => s.undisturbed act = true) (.call s 1)
        (.walk :: .kernel (.clockintr 0) :: List.replicate 68 .walk)).any (fun s' =>
          s'.walk.pc = .done ∧ s'.walk.cps.count = 1 ∧ s'.kernel.ticks = 1) = true)
    (by decide +kernel)
  obtain ⟨s', walked, done, count, ticks⟩ := exists_run_of_runChecked _
    (fun s act => WalkSys.undisturbed s act = true) _ _ walks
  exact ⟨s, s', running, done, count, ticks,
    (childProcesses_not_null run unnamed 1 notInit {} walked).2.1⟩

/-- Some run without thread calls leads `child_processes`, called by the running process `caller`,
to a null pointer. -/
def FollowsNull (n : Nat) (caller : ProcId) : Prop :=
  ∃ (s : Kernel n) (s' : WalkSys n),
    Run Kernel.step (fun _ act => act.threadCall = false) (boot n) s ∧
    (s.procs caller).state = .running ∧
    Run (WalkSys.step unnamed) (fun _ act => act.threadCall = false) (.call s caller) s' ∧
    s'.walk.pc = .fault

theorem followsNull_of_runs {caller : ProcId} (pre : List (Action n)) (during : List (WalkAction n))
    (runs : (runChecked Kernel.step (fun _ act => act.threadCall = false) (boot n) pre).any
      (fun s => (s.procs caller).state = .running ∧
        (runChecked (WalkSys.step unnamed) (fun _ act => act.threadCall = false) (.call s caller)
          during).any (fun s' => s'.walk.pc = .fault) = true) = true) : FollowsNull n caller := by
  obtain ⟨s, run, running, walks⟩ := exists_run_of_runChecked _ _ _ _ runs
  obtain ⟨s', walked, fault⟩ := exists_run_of_runChecked _ _ _ _ walks
  exact ⟨s, s', run, running, walked, fault⟩

/-- The first process, on CPU `c`, takes slot 2 for a second child. -/
def takeSecond (c : Fin n) : List (Action n) :=
  [.proc c (.fork none), .proc c (.allocproc true), .proc c (.allocproc true),
    .proc c (.allocproc true)]

/-- The child of the first process calls `child_processes`: while the first process is in `fork`
before the store of `np->parent`; or it reaps a second child between the reads of its `state` and
its `pid`.  The first process itself has no parent. -/
theorem childProcesses_follows_null : FollowsNull 2 1 ∧ FollowsNull 3 1 ∧ FollowsNull 1 0 := by
  refine ⟨?_, ?_, ?_⟩
  · exact followsNull_of_runs (childRuns 0 1)
      ((takeSecond 0).map .kernel ++ List.replicate 10 .walk) (by decide +kernel)
  · exact followsNull_of_runs (childRuns 0 1 ++ takeSecond 0 ++
        [.proc 0 .forkParent, .proc 0 .forkRunnable] ++ traps 2 ++ [.proc 2 (.exit 0)])
      (List.replicate 8 .walk ++ [.kernel (.proc 0 (.wait true)), .walk, .walk])
      (by decide +kernel)
  · exact followsNull_of_runs (traps 0) (List.replicate 4 .walk) (by decide +kernel)

end NullParents

namespace Reports

/-! ### set_cpu_quota -/

/-- `p->usage_time->quota = (uint) quota`. -/
def withQuota (table : Table) (p : ProcId) (quota : Int32) : Table :=
  update table p
    { table p with usage := { (table p).usage with quota := quota.toUInt32 } }

/-- The loop of `set_cpu_quota`: what it returns, and the table after it.  The pid of the
slot is read twice. -/
def setCpuQuotaLoop (table : Table) (pid quota : Int32) : List ProcId → Int32 × Table
  | [] => (-2, table)
  | p :: rest =>
    if (table p).state = .unused then setCpuQuotaLoop table pid quota rest
    else if (table p).pid = pid then
      if pid = (table p).pid then (0, withQuota table p quota) else (-1, table)
    else setCpuQuotaLoop table pid quota rest

/-- `set_cpu_quota`.  The caller is not looked at. -/
def setCpuQuota (table : Table) (pid quota : Int32) : Int32 × Table :=
  setCpuQuotaLoop table pid quota (List.finRange nproc)

/-- What the comment above `set_cpu_quota` says of its result. -/
inductive QuotaOutcome (table : Table) (caller : ProcId) (pid quota : Int32) :
    Int32 × Table → Prop where
  | child (p : ProcId) (used : (table p).state ≠ .unused) (named : (table p).pid = pid)
      (isChild : (table p).parent = some caller) :
      QuotaOutcome table caller pid quota (0, withQuota table p quota)
  | notChild (p : ProcId) (used : (table p).state ≠ .unused) (named : (table p).pid = pid)
      (stranger : (table p).parent ≠ some caller) : QuotaOutcome table caller pid quota (-1, table)
  | notFound (absent : ∀ p, (table p).state ≠ .unused → (table p).pid ≠ pid) :
      QuotaOutcome table caller pid quota (-2, table)

theorem setCpuQuotaLoop_cases (table : Table) (pid quota : Int32) (slots : List ProcId) :
    (∃ p, (table p).state ≠ .unused ∧ (table p).pid = pid ∧
      setCpuQuotaLoop table pid quota slots = (0, withQuota table p quota)) ∨
    ((∀ p ∈ slots, (table p).state ≠ .unused → (table p).pid ≠ pid) ∧
      setCpuQuotaLoop table pid quota slots = (-2, table)) := by
  induction slots with
  | nil => exact .inr ⟨fun p mem => absurd mem List.not_mem_nil, rfl⟩
  | cons p rest ih =>
    by_cases skipped : (table p).state = .unused ∨ (table p).pid ≠ pid
    · have next : setCpuQuotaLoop table pid quota (p :: rest) =
          setCpuQuotaLoop table pid quota rest := by
        rw [setCpuQuotaLoop]
        rcases skipped with unused | other
        · rw [if_pos unused]
        · rw [if_neg other, ite_self]
      rw [next]
      refine ih.imp id fun absent => ⟨fun i mem used => ?_, absent.2⟩
      rcases List.mem_cons.mp mem with rfl | later
      · exact skipped.resolve_left used
      · exact absent.1 i later used
    · obtain ⟨used, named⟩ := not_or.mp skipped
      have same := not_not.mp named
      refine .inl ⟨p, used, same, ?_⟩
      rw [setCpuQuotaLoop, if_neg used, if_pos same, if_pos same.symm]

/-- A result of 0 that is as the comment says is one for a child. -/
theorem QuotaOutcome.zero {table : Table} {caller : ProcId} {pid quota : Int32}
    {after : Int32 × Table} (outcome : QuotaOutcome table caller pid quota after)
    (zero : after.1 = 0) :
    ∃ p, (table p).state ≠ .unused ∧ (table p).pid = pid ∧ (table p).parent = some caller := by
  cases outcome with
  | child p used named isChild => exact ⟨p, used, named, isChild⟩
  | notChild => exact absurd (show (-1 : Int32) = 0 from zero) (by decide)
  | notFound => exact absurd (show (-2 : Int32) = 0 from zero) (by decide)

/-- If everybody with the pid is a child of the caller, `set_cpu_quota` changes the quota of that
child and nothing else, or finds nobody.  In a table with distinct pids the result is as it should
be only then. -/
theorem setCpuQuota_children (table : Table) (caller : ProcId) (pid quota : Int32) :
    ((∀ p, (table p).state ≠ .unused → (table p).pid = pid → (table p).parent = some caller) →
      QuotaOutcome table caller pid quota (setCpuQuota table pid quota)) ∧
    ((∀ p p', (table p).state ≠ .unused → (table p').state ≠ .unused →
        (table p).pid = (table p').pid → p = p') →
      QuotaOutcome table caller pid quota (setCpuQuota table pid quota) →
      ∀ p, (table p).state ≠ .unused → (table p).pid = pid → (table p).parent = some caller) := by
  rcases setCpuQuotaLoop_cases table pid quota (List.finRange nproc) with
    ⟨p, used, named, res⟩ | ⟨absent, res⟩ <;> rw [setCpuQuota, res]
  · refine ⟨fun own => .child p used named (own p used named), ?_⟩
    intro distinct outcome p' used' named'
    obtain ⟨child, usedChild, namedChild, isChild⟩ := outcome.zero rfl
    obtain rfl := distinct p' child used' usedChild (named'.trans namedChild.symm)
    exact isChild
  · refine ⟨fun _ => .notFound fun p => absent p (List.mem_finRange p), ?_⟩
    exact fun _ _ p used named => absurd named (absent p (List.mem_finRange p) used)

/-- The first process sets the quota of its child. -/
theorem setCpuQuota_children_packedTable :
    QuotaOutcome packedTable 0 2 5 (setCpuQuota packedTable 2 5) :=
  (setCpuQuota_children packedTable 0 2 5).1 (by decide +kernel)

/-- The child sets the quota of the first process, which is its parent. -/
theorem setCpuQuota_parent :
    (setCpuQuota packedTable 1 5).1 = 0 ∧ ((setCpuQuota packedTable 1 5).2 0).usage.quota = 5 ∧
      ¬ QuotaOutcome packedTable 1 1 5 (setCpuQuota packedTable 1 5) := by
  have res : (setCpuQuota packedTable 1 5).1 = 0 := by decide +kernel
  refine ⟨res, by decide +kernel, fun outcome => ?_⟩
  obtain ⟨p, child⟩ := outcome.zero res
  revert p
  decide +kernel

/-! ### The accesses of set_cpu_quota one after the other -/

section QuotaSteps

variable {n : Nat} {s s' : Kernel n} {table : Table} {p k : ProcId} {pid quota : Int32}

/-- The table has the states, pids and usage records of the kernel's. -/
def SameUsage (s : Kernel n) (table : Table) : Prop := ∀ i, (s.procs i).state = (table i).state ∧
  (s.procs i).pid = (table i).pid.toInt ∧
  ((table i).state ≠ .unused → (s.procs i).usageTime = some (table i).usage)

/-- Alone, `p` gets to the end of `set_cpu_quota` and leaves such a table. -/
def QuotaEnds (s : Kernel n) (p : ProcId) (table : Table) : Prop :=
  ∃ s', Relation.ReflTransGen (fun s s' => s.quotaStep p = some (.continues s')) s s' ∧
    (s'.procs p).context = .kernel ∧ SameUsage s' table

theorem QuotaEnds.head (moved : s.quotaStep p = some (.continues s'))
    (ends : QuotaEnds s' p table) : QuotaEnds s p table := by
  obtain ⟨last, run, done⟩ := ends
  exact ⟨last, .head moved run, done⟩

theorem SameUsage.setCont (same : SameUsage s table) (cont : Cont) :
    SameUsage (s.setCont p cont) table ∧ ((s.setCont p cont).procs p).context = cont := by
  refine ⟨fun i => ?_, by simp [Kernel.setCont]⟩
  rw [Kernel.setCont, Kernel.setProc_procs, update_apply]
  split
  · rename_i atP
    exact atP ▸ same i
  · exact same i

/-- The match: the pid is read again and the quota is stored. -/
theorem QuotaEnds.found (same : SameUsage s table) (used : (table k).state ≠ .unused)
    (reading : (s.procs p).context = .quotaPid (table k).pid.toInt quota.toUInt32 k) :
    QuotaEnds s p (withQuota table k quota) := by
  refine .head (by rw [Kernel.quotaStep, reading]; exact if_pos (same k).2.1) ?_
  obtain ⟨same₁, at₁⟩ := same.setCont (p := p) (.quotaCheck (table k).pid.toInt quota.toUInt32 k)
  refine .head (by rw [Kernel.quotaStep, at₁]; exact if_pos (same₁ k).2.1) ?_
  obtain ⟨same₂, at₂⟩ := same₁.setCont (p := p) (.quotaStore quota.toUInt32 k)
  generalize Kernel.setCont _ p (.quotaStore _ k) = s₂ at same₂ at₂ ⊢
  have stores : s₂.quotaStep p = some (s₂.quotaStore p quota.toUInt32 k) := by
    rw [Kernel.quotaStep, at₂]
  rw [Kernel.quotaStore, (same₂ k).2.2 used] at stores
  refine .head stores ⟨_, .refl, And.symm (SameUsage.setCont (fun i => ?_) _)⟩
  rw [withQuota, Kernel.setProc_procs, update_apply, update_apply]
  split
  · exact ⟨(same₂ k).1, (same₂ k).2.1, fun _ => rfl⟩
  · exact same₂ i

/-- The steps of `set_cpu_quota` do what its loop does. -/
theorem quotaEnds (same : SameUsage s table)
    (reading : (s.procs p).context = .quotaState pid.toInt quota.toUInt32 k) :
    QuotaEnds s p (setCpuQuotaLoop table pid quota ((List.finRange nproc).drop k)).2 := by
  induction left : nproc - k.val generalizing s k with
  | zero => omega
  | succ left ih =>
    have goesOn {s : Kernel n} (same : SameUsage s table) :
        QuotaEnds (s.loopOr p k (.quotaState pid.toInt quota.toUInt32)) p
          (setCpuQuotaLoop table pid quota ((List.finRange nproc).drop (k + 1))).2 := by
      rw [Kernel.loopOr, nextSlot]
      by_cases lt : k.val + 1 < nproc
      · rw [dif_pos lt]
        obtain ⟨same₁, at₁⟩ := same.setCont _
        exact ih same₁ at₁ (by simp only; omega)
      · rw [dif_neg lt, List.drop_of_length_le (by simpa using lt)]
        exact ⟨_, .refl, And.symm (same.setCont _)⟩
    rw [List.drop_eq_getElem_cons (by simp), List.getElem_finRange, Fin.cast_mk, setCpuQuotaLoop]
    split
    · rename_i unused
      refine .head ?_ (goesOn same)
      rw [Kernel.quotaStep, reading]
      exact if_pos ((same k).1.trans unused)
    rename_i used
    refine .head (by rw [Kernel.quotaStep, reading]; exact if_neg ((same k).1.trans_ne used)) ?_
    obtain ⟨same₁, at₁⟩ := same.setCont (p := p) (.quotaPid pid.toInt quota.toUInt32 k)
    split
    · rename_i named
      subst named
      rw [if_pos rfl]
      exact .found same₁ used at₁
    · rename_i other
      refine .head ?_ (goesOn same₁)
      rw [Kernel.quotaStep, at₁]
      exact if_neg fun isPid => other (Int32.toInt_inj.mp ((same₁ k).2.1.symm.trans isPid))

end QuotaSteps

end Reports

end CustomXv6

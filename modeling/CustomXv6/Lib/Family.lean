/-
Module: CustomXv6.Lib.Family
Purpose: Families of processes that fork, exit, wait for their children and reap them.
Trusted boundary: none
Main exports: Family.Step, Family.Inv.step
-/
import Mathlib.Logic.Relation
import Mathlib.Tactic.Common

/-!
A table has entries, some of them free.  A live member takes a free entry for a child, becomes
its parent, and makes it live.  A member that exits gives its children to the root and stays as
a zombie until its parent reaps it.  A member that finds no zombie among its children may wait;
whoever makes one of them a zombie, or gives it a new child, has to wake it.
-/

/-- The life of an entry. -/
inductive Family.Stage where
  | free
  | fresh
  | live
  | zombie
deriving DecidableEq, Repr

/-- The columns of a table.  `forking` is the child that a member is making,
with a flag that says whether the member is its parent already. -/
structure Family (ι : Type*) where
  stage : ι → Family.Stage
  pid : ι → Int
  parent : ι → Option ι
  forking : ι → Option (ι × Bool)
  waits : ι → Bool
  nextpid : Int

namespace Family

open Function

variable {ι : Type*} [DecidableEq ι] {root : ι} {t t' : Family ι}

def NoNewWait (t t' : Family ι) : Prop := ∀ j, t'.waits j = true → t.waits j = true

inductive Step (root : ι) (t t' : Family ι) : Prop where
  | quiet (next : t.nextpid ≤ t'.nextpid) (stage : t'.stage = t.stage) (pid : t'.pid = t.pid)
      (parent : t'.parent = t.parent) (forking : t'.forking = t.forking)
      (waits : NoNewWait t t')
  | takes (p i : ι) (free : t.stage i = .free) (live : t.stage p = .live)
      (idle : t.forking p = none) (next : t'.nextpid = t.nextpid + 1)
      (stage : t'.stage = update t.stage i .fresh)
      (pid : t'.pid = update t.pid i t.nextpid) (parent : t'.parent = t.parent)
      (forking : t'.forking = update (update t.forking i none) p (i, false))
      (waits : NoNewWait t t')
  | adopts (p i : ι) (making : t.forking p = some (i, false)) (next : t'.nextpid = t.nextpid)
      (stage : t'.stage = t.stage) (pid : t'.pid = t.pid)
      (parent : t'.parent = update t.parent i p)
      (forking : t'.forking = update t.forking p (i, true)) (waits : NoNewWait t t')
  | readies (p i : ι) (making : t.forking p = some (i, true)) (next : t'.nextpid = t.nextpid)
      (stage : t'.stage = update t.stage i .live) (pid : t'.pid = t.pid)
      (parent : t'.parent = t.parent) (forking : t'.forking = update t.forking p none)
      (waits : NoNewWait t t')
  | reaps (p i : ι) (child : t.parent i = some p) (zombie : t.stage i = .zombie)
      (next : t'.nextpid = t.nextpid)
      (stage : t'.stage = update t.stage i .free)
      (pid : t'.pid = update t.pid i 0) (parent : t'.parent = update t.parent i none)
      (forking : t'.forking = t.forking) (waits : NoNewWait t t')
  | waits (p r : ι) (live : t.stage p = .live) (child : t.parent r = some p)
      (noZombie : ∀ j, t.parent j = some p → t.stage j ≠ .zombie)
      (next : t'.nextpid = t.nextpid) (stage : t'.stage = t.stage) (pid : t'.pid = t.pid)
      (parent : t'.parent = t.parent) (forking : t'.forking = t.forking)
      (waits : ∀ j, j ≠ p → t'.waits j = true → t.waits j = true)
  | exits (p : ι) (notRoot : p ≠ root) (live : t.stage p = .live) (idle : t.forking p = none)
      (next : t'.nextpid = t.nextpid) (stage : t'.stage = update t.stage p .zombie)
      (pid : t'.pid = t.pid)
      (parent : t'.parent = fun j => if t.parent j = some p then some root else t.parent j)
      (forking : t'.forking = t.forking)
      (waits : ∀ j, t'.waits j = true → t.waits j = true ∧ j ≠ p ∧ t.parent p ≠ some j ∧
        (j = root → ∀ r, t.parent r ≠ some p))

/-- Every entry that is being set up has one live member that does it. -/
structure Forks (t : Family ι) : Prop where
  forker : ∀ i, t.stage i = .fresh → ∃ f b, t.forking f = some (i, b)
  forkerLive : ∀ f i b, t.forking f = some (i, b) → t.stage f = .live
  forkingFresh : ∀ f i b, t.forking f = some (i, b) → t.stage i = .fresh
  unique : ∀ f f' i b b', t.forking f = some (i, b) → t.forking f' = some (i, b') → f = f'

/-- The parents form a tree: they are live, and older than their children. -/
structure Tree (root : ι) (t : Family ι) : Prop where
  rootLive : t.stage root = .live
  rootParent : t.parent root = none
  rootLeast : ∀ i, t.stage i ≠ .free → i ≠ root → t.pid root < t.pid i
  free : ∀ i, t.stage i = .free → t.parent i = none
  parentLive : ∀ i q, t.parent i = some q → t.stage q = .live
  order : ∀ i q, t.parent i = some q → t.pid q < t.pid i
  hasParent : ∀ i, t.stage i = .live ∨ t.stage i = .zombie → i ≠ root → t.parent i ≠ none
  forkingOrder : ∀ f i b, t.forking f = some (i, b) → t.pid f < t.pid i
  adopted : ∀ f i, t.forking f = some (i, true) → t.parent i = some f
  orphan : ∀ f i, t.forking f = some (i, false) → t.parent i = none
  bound : ∀ i, t.pid i < t.nextpid
  positive : 0 < t.nextpid

/-- Only members with something to wait for wait. -/
structure Waits (t : Family ι) : Prop where
  live : ∀ i, t.waits i = true → t.stage i = .live
  child : ∀ i, t.waits i = true → ∃ r, t.parent r = some i
  noZombie : ∀ i r, t.waits i = true → t.parent r = some i → t.stage r ≠ .zombie

structure Inv (root : ι) (t : Family ι) : Prop where
  forks : Forks t
  tree : Tree root t
  waits : Waits t

theorem Forks.step (inv : Forks t) (ran : Step root t t') : Forks t' := by
  obtain ⟨forker, forkerLive, forkingFresh, unique⟩ := inv
  obtain ⟨_, _⟩ := t'
  cases ran with
  | quiet _ stage _ _ forking =>
    subst stage forking
    exact ⟨forker, forkerLive, forkingFresh, unique⟩
  | takes p i _ _ _ _ stage _ _ forking =>
    dsimp only at *
    subst stage forking
    refine ⟨fun j fresh => ?_, by grind, by grind, by grind⟩
    by_cases new : j = i
    · exact ⟨p, false, by grind⟩
    · obtain ⟨f, b, _⟩ := forker j (by grind)
      exact ⟨f, b, by grind⟩
  | adopts p _ _ _ stage _ _ forking =>
    subst stage forking
    refine ⟨fun j fresh => ?_, by grind, by grind, by grind⟩
    obtain ⟨f, b, _⟩ := forker j fresh
    by_cases same : f = p
    · exact ⟨p, true, by grind⟩
    · exact ⟨f, b, by grind⟩
  | readies _ _ _ _ stage _ _ forking =>
    dsimp only at *
    subst stage forking
    refine ⟨fun j fresh => ?_, by grind, by grind, by grind⟩
    obtain ⟨f, b, _⟩ := forker j (by grind)
    exact ⟨f, b, by grind⟩
  | reaps _ _ _ _ _ stage _ _ forking =>
    subst stage forking
    refine ⟨fun j fresh => ?_, by grind, by grind, by grind⟩
    exact forker j (by grind)
  | waits _ _ _ _ _ _ stage _ _ forking =>
    dsimp only at *
    subst stage forking
    exact ⟨forker, forkerLive, forkingFresh, unique⟩
  | exits _ _ _ _ _ stage _ _ forking =>
    subst stage forking
    refine ⟨fun j fresh => ?_, by grind, by grind, by grind⟩
    exact forker j (by grind)

namespace Tree

omit [DecidableEq ι] in
/-- The invariant with what it says of a member, of a parent and of a child that
is being made stated together. -/
theorem of_links (rootLive : t.stage root = .live) (rootParent : t.parent root = none)
    (free : ∀ i, t.stage i = .free → t.parent i = none)
    (member : ∀ i, t.stage i ≠ .free → i ≠ root →
      t.pid root < t.pid i ∧ (t.stage i ≠ .fresh → t.parent i ≠ none))
    (link : ∀ i q, t.parent i = some q → t.stage q = .live ∧ t.pid q < t.pid i)
    (making : ∀ f i b, t.forking f = some (i, b) →
      t.pid f < t.pid i ∧ t.parent i = if b then some f else none)
    (bound : ∀ i, t.pid i < t.nextpid) (positive : 0 < t.nextpid) : Tree root t where
  rootLive := rootLive
  rootParent := rootParent
  rootLeast i used notRoot := (member i used notRoot).1
  free := free
  parentLive i q parent := (link i q parent).1
  order i q parent := (link i q parent).2
  hasParent i either notRoot := by
    rcases either with stage | stage <;>
      exact (member i (by simp [stage]) notRoot).2 (by simp [stage])
  forkingOrder f i b forking := (making f i b forking).1
  adopted f i forking := (making f i true forking).2
  orphan f i forking := (making f i false forking).2
  bound := bound
  positive := positive

section

variable (inv : Tree root t) {i j f q : ι} {b : Bool}
include inv

omit [DecidableEq ι] in
theorem member (used : t.stage i ≠ .free) (notRoot : i ≠ root) :
    t.pid root < t.pid i ∧ (t.stage i ≠ .fresh → t.parent i ≠ none) := by
  refine ⟨inv.rootLeast i used notRoot, fun made => inv.hasParent i ?_ notRoot⟩
  cases stage : t.stage i <;> simp_all

omit [DecidableEq ι] in
theorem link (parent : t.parent i = some q) : t.stage q = .live ∧ t.pid q < t.pid i :=
  ⟨inv.parentLive i q parent, inv.order i q parent⟩

omit [DecidableEq ι] in
theorem making (forking : t.forking f = some (i, b)) :
    t.pid f < t.pid i ∧ t.parent i = if b then some f else none := by
  refine ⟨inv.forkingOrder f i b forking, ?_⟩
  cases b with
  | false => exact inv.orphan f i forking
  | true => exact inv.adopted f i forking

end

section

variable {p i : ι} {waits : ι → Bool} (forks : Forks t) (inv : Tree root t)
include forks inv

theorem takes (free : t.stage i = .free) (live : t.stage p = .live) :
    Tree root ⟨update t.stage i .fresh, update t.pid i t.nextpid, t.parent,
      update (update t.forking i none) p (i, false), waits, t.nextpid + 1⟩ := by
  -- The free entry is nobody's parent and has none.
  have inUse : ∀ {j}, t.stage j ≠ .free → j ≠ i := by
    rintro j used rfl
    exact used free
  have rootOther : root ≠ i := inUse (by simp [inv.rootLive])
  have pOther : p ≠ i := inUse (by simp [live])
  refine of_links ?_ inv.rootParent ?_ ?_ ?_ ?_ ?_
    (Int.lt_add_one_of_le (Int.le_of_lt inv.positive))
  all_goals dsimp only
  · rw [update_of_ne rootOther]
    exact inv.rootLive
  · intro j isFree
    rw [update_apply] at isFree
    split at isFree
    · cases isFree
    · exact inv.free j isFree
  · intro j used notRoot
    rw [update_of_ne rootOther]
    by_cases new : j = i
    · rw [new, update_self, update_self]
      exact ⟨inv.bound root, fun fresh => absurd rfl fresh⟩
    rw [update_of_ne new] at used ⊢
    rw [update_of_ne new]
    exact inv.member used notRoot
  · intro j q child
    have qOther : q ≠ i := inUse (by simp [inv.parentLive j q child])
    have jOther : j ≠ i := by
      rintro rfl
      cases (inv.free j free).symm.trans child
    rw [update_of_ne qOther, update_of_ne qOther, update_of_ne jOther]
    exact inv.link child
  · intro f j b making
    rw [update_apply] at making
    split at making
    · rename_i same
      cases making
      rw [same, update_of_ne pOther, update_self]
      exact ⟨inv.bound p, inv.free i free⟩
    rw [update_apply] at making
    split at making
    · cases making
    rename_i fOther
    have jOther : j ≠ i := inUse (by simp [forks.forkingFresh f j b making])
    rw [update_of_ne fOther, update_of_ne jOther]
    exact inv.making making
  intro j
  rw [update_apply]
  split
  · exact Int.lt_succ _
  · exact Int.lt_add_one_of_le (Int.le_of_lt (inv.bound j))

theorem adopts (making : t.forking p = some (i, false)) :
    Tree root ⟨t.stage, t.pid, update t.parent i p, update t.forking p (i, true), waits,
      t.nextpid⟩ := by
  have fresh := forks.forkingFresh p i false making
  have other : ∀ {j}, t.stage j ≠ .fresh → j ≠ i := by
    rintro j made rfl
    exact made fresh
  refine of_links inv.rootLive ?_ ?_ ?_ ?_ ?_ inv.bound inv.positive
  all_goals dsimp only
  · rw [update_of_ne (other (by simp [inv.rootLive]))]
    exact inv.rootParent
  · intro j isFree
    rw [update_of_ne (other (by simp [isFree]))]
    exact inv.free j isFree
  · intro j used notRoot
    refine ⟨inv.rootLeast j used notRoot, fun made => ?_⟩
    rw [update_of_ne (other made)]
    exact (inv.member used notRoot).2 made
  · intro j q child
    rw [update_apply] at child
    split at child
    · rename_i same
      cases child
      exact same ▸ ⟨forks.forkerLive p i false making, inv.forkingOrder p i false making⟩
    · exact inv.link child
  intro f j b forking
  rw [update_apply] at forking
  split at forking
  · rename_i same
    cases forking
    rw [same, update_self]
    exact ⟨inv.forkingOrder p i false making, rfl⟩
  rename_i ne
  rw [update_of_ne]
  · exact inv.making forking
  · rintro rfl
    exact ne (forks.unique f p j b false forking making)

theorem readies (making : t.forking p = some (i, true)) :
    Tree root ⟨update t.stage i .live, t.pid, t.parent, update t.forking p none, waits,
      t.nextpid⟩ := by
  have live : ∀ {j}, t.stage j = .live → update t.stage i .live j = .live := by
    intro j isLive
    rw [update_apply]
    split
    · rfl
    · exact isLive
  refine of_links (live inv.rootLive) inv.rootParent ?_ ?_ ?_ ?_ inv.bound inv.positive
  all_goals dsimp only
  · intro j isFree
    rw [update_apply] at isFree
    split at isFree
    · cases isFree
    · exact inv.free j isFree
  · intro j used notRoot
    by_cases new : j = i
    · subst new
      refine ⟨inv.rootLeast j ?_ notRoot, fun _ => ?_⟩
      · simp [forks.forkingFresh p j true making]
      · simp [inv.adopted p j making]
    · rw [update_of_ne new] at used ⊢
      exact inv.member used notRoot
  · intro j q child
    exact ⟨live (inv.parentLive j q child), inv.order j q child⟩
  intro f j b forking
  rw [update_apply] at forking
  split at forking
  · cases forking
  · exact inv.making forking

theorem reaps (zombie : t.stage i = .zombie) :
    Tree root ⟨update t.stage i .free, update t.pid i 0, update t.parent i none, t.forking, waits,
      t.nextpid⟩ := by
  have other : ∀ {j}, t.stage j ≠ .zombie → j ≠ i := by
    rintro j alive rfl
    exact alive zombie
  have rootOther : root ≠ i := other (by simp [inv.rootLive])
  refine of_links ?_ ?_ ?_ ?_ ?_ ?_ ?_ inv.positive
  all_goals dsimp only
  · rw [update_of_ne rootOther]
    exact inv.rootLive
  · rw [update_of_ne rootOther]
    exact inv.rootParent
  · intro j isFree
    by_cases same : j = i
    · rw [same, update_self]
    · rw [update_of_ne same] at isFree ⊢
      exact inv.free j isFree
  · intro j used notRoot
    have ne : j ≠ i := by
      rintro rfl
      exact used (update_self ..)
    rw [update_of_ne ne] at used ⊢
    rw [update_of_ne ne, update_of_ne ne, update_of_ne rootOther]
    exact inv.member used notRoot
  · intro j q parent
    rw [update_apply] at parent
    split at parent
    · cases parent
    rename_i ne
    have qOther : q ≠ i := other (by simp [inv.parentLive j q parent])
    rw [update_of_ne qOther, update_of_ne qOther, update_of_ne ne]
    exact inv.link parent
  · intro f j b making
    have fOther : f ≠ i := other (by simp [forks.forkerLive f j b making])
    have jOther : j ≠ i := other (by simp [forks.forkingFresh f j b making])
    rw [update_of_ne fOther, update_of_ne jOther, update_of_ne jOther]
    exact inv.making making
  intro j
  rw [update_apply]
  split
  · exact inv.positive
  · exact inv.bound j

omit forks in
theorem exits (notRoot : p ≠ root) (live : t.stage p = .live) (idle : t.forking p = none) :
    Tree root ⟨update t.stage p .zombie, t.pid,
      fun j => if t.parent j = some p then some root else t.parent j, t.forking, waits,
      t.nextpid⟩ := by
  -- Where the parent is not `p`, it stays.
  have keeps : ∀ {j}, t.parent j ≠ some p →
      (if t.parent j = some p then some root else t.parent j) = t.parent j :=
    fun noChild => if_neg noChild
  have pMember := inv.member (i := p) (by simp [live]) notRoot
  refine of_links ?_ ?_ ?_ ?_ ?_ ?_ inv.bound inv.positive
  all_goals dsimp only
  · rw [update_of_ne notRoot.symm]
    exact inv.rootLive
  · rw [keeps (by simp [inv.rootParent]), inv.rootParent]
  · intro j isFree
    rw [update_apply] at isFree
    split at isFree
    · cases isFree
    · rw [keeps (by simp [inv.free j isFree]), inv.free j isFree]
  · intro j used other
    have pre : t.pid root < t.pid j ∧ (t.stage j ≠ .fresh → t.parent j ≠ none) := by
      by_cases same : j = p
      · rw [same]
        exact pMember
      · rw [update_of_ne same] at used
        exact inv.member used other
    refine ⟨pre.1, fun made => ?_⟩
    split
    · exact Option.some_ne_none root
    refine pre.2 fun fresh => made ?_
    rw [update_of_ne, fresh]
    rintro rfl
    cases live.symm.trans fresh
  · intro j q parent
    split at parent
    · rename_i child
      cases parent
      rw [update_of_ne notRoot.symm]
      exact ⟨inv.rootLive, Int.lt_trans pMember.1 (inv.order j p child)⟩
    rename_i noChild
    rw [update_of_ne]
    · exact inv.link parent
    · rintro rfl
      exact noChild parent
  intro f j b making
  rw [keeps]
  · exact inv.making making
  intro child
  rw [(inv.making making).2] at child
  cases b <;> cases child
  cases idle.symm.trans making

end

theorem step (forks : Forks t) (inv : Tree root t) (ran : Step root t t') : Tree root t' := by
  obtain ⟨_, _, _, _, _, _⟩ := t'
  cases ran with
  | quiet next stage pid parent forking =>
    subst stage pid parent forking
    exact { inv with
      bound := fun i => Int.lt_of_lt_of_le (inv.bound i) next
      positive := Int.lt_of_lt_of_le inv.positive next }
  | takes p i free live _ next stage pid parent forking =>
    dsimp only at *
    subst stage pid parent forking next
    exact inv.takes forks free live
  | adopts p i making next stage pid parent forking =>
    subst stage pid parent forking next
    exact inv.adopts forks making
  | readies p i making next stage pid parent forking =>
    dsimp only at *
    subst stage pid parent forking next
    exact inv.readies forks making
  | reaps p i _ zombie next stage pid parent forking =>
    subst stage pid parent forking next
    exact inv.reaps forks zombie
  | waits p r _ _ _ next stage pid parent forking =>
    dsimp only at *
    subst stage pid parent forking next
    exact { inv with }
  | exits p notRoot live idle next stage pid parent forking =>
    subst stage pid parent forking next
    exact inv.exits notRoot live idle

end Tree

theorem Waits.step (forks : Forks t) (tree : Tree root t) (inv : Waits t)
    (ran : Step root t t') : Waits t' := by
  obtain ⟨live, child, noZombie⟩ := inv
  obtain ⟨_, _⟩ := t'
  cases ran with
  | quiet _ stage _ parent _ waits =>
    subst stage parent
    exact ⟨fun i wait => live i (waits i wait), fun i wait => child i (waits i wait),
      fun i r wait => noZombie i r (waits i wait)⟩
  | takes _ i _ _ _ _ stage _ parent _ waits =>
    unfold NoNewWait at waits
    dsimp only at *
    subst stage parent
    exact ⟨by grind, fun i wait => child i (waits i wait), by grind⟩
  | adopts p i making _ stage _ parent _ waits =>
    unfold NoNewWait at waits
    subst stage parent
    have orphan := tree.orphan p i making
    have fresh := forks.forkingFresh p i false making
    refine ⟨fun i wait => live i (waits i wait), fun j wait => ?_, by grind⟩
    obtain ⟨r, _⟩ := child j (waits j wait)
    exact ⟨r, by grind⟩
  | readies _ i _ _ stage _ parent _ waits =>
    unfold NoNewWait at waits
    dsimp only at *
    subst stage parent
    exact ⟨by grind, fun i wait => child i (waits i wait), by grind⟩
  | reaps _ _ _ _ _ stage _ parent _ waits =>
    unfold NoNewWait at waits
    subst stage parent
    refine ⟨by grind, fun j wait => ?_, by grind⟩
    obtain ⟨r, _⟩ := child j (waits j wait)
    exact ⟨r, by grind⟩
  | waits p r _ _ _ _ stage _ parent _ waits =>
    dsimp only at *
    subst stage parent
    refine ⟨by grind, fun j wait => ?_, by grind⟩
    by_cases same : j = p
    · exact ⟨r, by grind⟩
    · exact child j (waits j same wait)
  | exits _ _ _ _ _ stage _ parent _ waits =>
    subst stage parent
    refine ⟨by grind, fun j wait => ?_, by grind⟩
    obtain ⟨r, _⟩ := child j (waits j wait).1
    exact ⟨r, by grind⟩

theorem Inv.step (inv : Inv root t) (ran : Step root t t') : Inv root t' :=
  ⟨inv.forks.step ran, inv.tree.step inv.forks ran, inv.waits.step inv.forks inv.tree ran⟩

namespace Step

variable {i : ι}

/-- An entry keeps its pid as long as it is in use. -/
theorem pid_kept (ran : Step root t t') (pre : t.stage i ≠ .free)
    (after : t'.stage i ≠ .free) : t'.pid i = t.pid i := by
  cases ran with
  | takes _ j free _ _ _ _ pid =>
    have other : i ≠ j := by
      rintro rfl
      exact pre free
    rw [pid, update_of_ne other]
  | reaps _ j _ _ _ stage pid =>
    have other : i ≠ j := by
      rintro rfl
      rw [stage, update_self] at after
      exact after rfl
    rw [pid, update_of_ne other]
  | quiet _ _ pid => rw [pid]
  | adopts _ _ _ _ _ pid => rw [pid]
  | readies _ _ _ _ _ pid => rw [pid]
  | waits _ _ _ _ _ _ _ pid => rw [pid]
  | exits _ _ _ _ _ _ pid => rw [pid]

/-- An entry that is taken into use has a new pid. -/
theorem pid_new (ran : Step root t t') (forks : Forks t) (pre : t.stage i = .free)
    (after : t'.stage i ≠ .free) : t'.pid i = t.nextpid := by
  -- Only the entry that is taken stops being free.
  have kept : ∀ {j : ι} {stage : Stage}, t.stage j ≠ .free →
      t'.stage = update t.stage j stage → False := by
    intro j stage used stageEq
    have other : i ≠ j := by
      rintro rfl
      exact used pre
    rw [stageEq, update_of_ne other] at after
    exact after pre
  cases ran with
  | takes _ j _ _ _ _ stage pid =>
    have same : i = j := by
      by_contra other
      rw [stage, update_of_ne other] at after
      exact after pre
    rw [pid, same, update_self]
  | quiet _ stage => exact absurd (by rw [stage]; exact pre) after
  | adopts _ _ _ _ stage => exact absurd (by rw [stage]; exact pre) after
  | readies p j making _ stage =>
    exact (kept (by simp [forks.forkingFresh p j true making]) stage).elim
  | reaps _ _ _ zombie _ stage => exact (kept (by simp [zombie]) stage).elim
  | waits _ _ _ _ _ _ stage => exact absurd (by rw [stage]; exact pre) after
  | exits _ _ live _ _ stage => exact (kept (by simp [live]) stage).elim

/-- A parent pointer is cleared only when its entry is freed. -/
theorem parent_kept (ran : Step root t t') (pre : t.parent i ≠ none)
    (after : t'.stage i ≠ .free) : t'.parent i ≠ none := by
  cases ran with
  | quiet _ _ _ parent => rwa [parent]
  | takes _ _ _ _ _ _ _ _ parent => rwa [parent]
  | adopts _ _ _ _ _ _ parent =>
    rw [parent, update_apply]
    split
    · simp
    · exact pre
  | readies _ _ _ _ _ _ parent => rwa [parent]
  | reaps _ j _ _ _ stage _ parent =>
    have other : i ≠ j := by
      rintro rfl
      rw [stage, update_self] at after
      exact after rfl
    rwa [parent, update_of_ne other]
  | waits _ _ _ _ _ _ _ _ parent => rwa [parent]
  | exits _ _ _ _ _ _ _ parent =>
    rw [parent]
    simp only
    split
    · simp
    · exact pre

end Step

/-! ### The tree -/

namespace Tree

omit [DecidableEq ι] in
/-- Going from a member to its parent, and on, leads to members with smaller
pids only. -/
theorem pid_lt_of_ancestor (tree : Tree root t) {i j : ι}
    (above : Relation.TransGen (fun i q => t.parent i = some q) i j) : t.pid j < t.pid i := by
  induction above with
  | single parent => exact tree.order _ _ parent
  | tail _ parent ih =>
    exact Int.lt_trans (tree.order _ _ parent) ih

omit [DecidableEq ι] in
theorem acyclic (tree : Tree root t) (i : ι) :
    ¬ Relation.TransGen (fun i q => t.parent i = some q) i i :=
  fun cycle => Int.lt_irrefl _ (tree.pid_lt_of_ancestor cycle)

/-- The chain of parents of a live member ends at the root. -/
theorem reaches_root (tree : Tree root t) {i : ι} (live : t.stage i = .live) :
    Relation.ReflTransGen (fun i q => t.parent i = some q) i root := by
  -- Induction on how far the pid of the member is above that of the root.
  generalize distance : (t.pid i - t.pid root).toNat = k
  induction k using Nat.strongRecOn generalizing i with
  | ind _ ih =>
    by_cases isRoot : i = root
    · rw [isRoot]
    obtain ⟨q, parent⟩ := Option.ne_none_iff_exists'.mp (tree.hasParent i (.inl live) isRoot)
    have older := tree.order i q parent
    have above := tree.rootLeast i (by simp [live]) isRoot
    exact .head parent (ih _ (by omega) (tree.parentLive i q parent) rfl)

end Tree

end Family

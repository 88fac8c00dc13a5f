/-
Module: CustomXv6.Lib.RedoLog
Purpose: The mathematics of a redo log: groups of writes, recovery and installing.
Trusted boundary: none
Main exports: contents, Recoverable, Installed
-/
import Mathlib.Data.List.Basic

namespace RedoLog

open Function

variable {ι α : Type*}

/-! ### Writes -/

variable {b : ι}

section Writes

variable [DecidableEq ι]

/-- What a list of writes, the latest of them first, makes of a disk. -/
def applyWrites (writes : List (ι × α)) (disk : ι → α) : ι → α :=
  writes.foldr (fun write pre => update pre write.1 write.2) disk

@[simp] theorem applyWrites_cons (write : ι × α) (writes : List (ι × α)) (disk : ι → α) :
    applyWrites (write :: writes) disk = update (applyWrites writes disk) write.1 write.2 := rfl

/-- A block that no write is about keeps its contents. -/
theorem applyWrites_of_not_mem {writes : List (ι × α)} {disk : ι → α}
    (untouched : b ∉ writes.map Prod.fst) : applyWrites writes disk b = disk b := by
  induction writes with
  | nil => rfl
  | cons _ _ ih =>
    rw [List.map_cons, List.mem_cons, not_or] at untouched
    rw [applyWrites_cons, update_of_ne untouched.1]
    exact ih untouched.2

/-- The contents after a sequence of groups of writes, the latest group first. -/
def contents (groups : List (List (ι × α))) (base : ι → α) : ι → α := groups.foldr applyWrites base

end Writes

/-! ### Recovery

`home` are the blocks the log protects, `slot i` is the place of the copy of
the `i`-th logged block, and `head` is the list of logged blocks that the header
names. -/

/-- From this disk the contents `target` of all home blocks can be recovered:
the blocks the header names have their contents in the log, the others in
place. -/
structure Recoverable (home : ι → Prop) (slot : Nat → ι) (head : List ι) (disk target : ι → α) :
    Prop where
  homes : ∀ b ∈ head, home b
  apart : ∀ i < head.length, ¬ home (slot i)
  logged : ∀ i b, head[i]? = some b → disk (slot i) = target b
  others : ∀ b, home b → b ∉ head → disk b = target b

/-- The first `tail` blocks of the header are in place. -/
def Installed (head : List ι) (tail : Nat) (disk target : ι → α) : Prop :=
  ∀ i b, i < tail → head[i]? = some b → disk b = target b

variable {home : ι → Prop} {slot : Nat → ι} {head : List ι} {disk target : ι → α}

theorem installed_zero : Installed head 0 disk target :=
  fun _ _ below => absurd below (Nat.not_lt_zero _)

namespace Recoverable

/-- Under an empty header all contents are in place. -/
theorem clean (inPlace : ∀ b, home b → disk b = target b) : Recoverable home slot [] disk target where
  homes := fun _ mem => absurd mem List.not_mem_nil
  apart := fun _ below => absurd below (Nat.not_lt_zero _)
  logged := fun _ _ named => by simp at named
  others := fun b isHome _ => inPlace b isHome

theorem in_place (recoverable : Recoverable home slot [] disk target) (isHome : home b) :
    disk b = target b :=
  recoverable.others b isHome List.not_mem_nil

variable [DecidableEq ι]

/-- The header of a group whose blocks have been copied to the log makes the
contents after the group recoverable. -/
theorem commit {group : List (ι × α)} (pre : Recoverable home slot [] disk target)
    (homes : ∀ b ∈ head, home b) (apart : ∀ i < head.length, ¬ home (slot i))
    (named : ∀ b, b ∈ group.map Prod.fst → b ∈ head)
    (copied : ∀ i b, head[i]? = some b → disk (slot i) = applyWrites group target b) :
    Recoverable home slot head disk (applyWrites group target) where
  homes := homes
  apart := apart
  logged := copied
  others := by
    intro b isHome unnamed
    rw [applyWrites_of_not_mem fun mem => unnamed (named b mem)]
    exact pre.in_place isHome

section

variable (recoverable : Recoverable home slot head disk target)
include recoverable

/-- Writing a block that is neither home nor in use as a copy. -/
theorem write_apart {x : ι} (value : α)
    (notHome : ¬ home x) (unused : ∀ i < head.length, slot i ≠ x) :
    Recoverable home slot head (update disk x value) target where
  homes := recoverable.homes
  apart := recoverable.apart
  logged := by
    intro i b named
    have below : i < head.length := (List.getElem?_eq_some_iff.mp named).1
    rw [update_of_ne (unused i below)]
    exact recoverable.logged i b named
  others := by
    intro b isHome unnamed
    have other : b ≠ x := by
      rintro rfl
      exact notHome isHome
    rw [update_of_ne other]
    exact recoverable.others b isHome unnamed

/-- Copying a logged block to its home. -/
theorem install {i : Nat} (named : head[i]? = some b) :
    Recoverable home slot head (update disk b (disk (slot i))) target where
  homes := recoverable.homes
  apart := recoverable.apart
  logged := by
    intro j b' named'
    have below : j < head.length := (List.getElem?_eq_some_iff.mp named').1
    have isHome : home b := recoverable.homes b (List.mem_of_getElem? named)
    have other : slot j ≠ b := by
      rintro rfl
      exact recoverable.apart j below isHome
    rw [update_of_ne other]
    exact recoverable.logged j b' named'
  others := by
    intro b' isHome unnamed
    have other : b' ≠ b := by
      rintro rfl
      exact unnamed (List.mem_of_getElem? named)
    rw [update_of_ne other]
    exact recoverable.others b' isHome unnamed

/-- One more block is in place after its copy has been installed. -/
theorem installed_succ {tail : Nat} (named : head[tail]? = some b)
    (installed : Installed head tail disk target) :
    Installed head (tail + 1) (update disk b (disk (slot tail))) target := by
  intro i b' _ named'
  by_cases same : b' = b
  · subst same
    rw [update_self]
    exact recoverable.logged tail b' named
  rw [update_of_ne same]
  have notLast : i ≠ tail := by
    rintro rfl
    exact same (Option.some.inj (named'.symm.trans named))
  exact installed i b' (by omega) named'

end

omit [DecidableEq ι] in
/-- With the whole header installed, all home blocks have their contents. -/
theorem installed (recoverable : Recoverable home slot head disk target)
    (all : Installed head head.length disk target) (isHome : home b) : disk b = target b := by
  by_cases mem : b ∈ head
  · obtain ⟨i, below, named⟩ := List.mem_iff_getElem.mp mem
    exact all i b below (List.getElem?_eq_some_iff.mpr ⟨below, named⟩)
  · exact recoverable.others b isHome mem

end Recoverable

end RedoLog

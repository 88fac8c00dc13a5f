/-
Module: CustomXv6.Lib.PageHeap
Purpose: A memory of pages with a list of free ones, and ownership of pages as a tally.
Trusted boundary: none
Main exports: Heap, tally, Separate, Moves
-/
import Mathlib.Algebra.Ring.Nat
import Mathlib.Algebra.Group.Pi.Basic
import Mathlib.Data.List.Nodup

namespace PageHeap

variable {Page Content : Type*}

/-- The free pages in the order in which they are handed out, and what every
page holds. -/
structure Heap (Page Content : Type*) where
  freelist : List Page
  mem : Page → Content

variable [DecidableEq Page]

/-- How often each page stands in a list. -/
def tally (pages : List Page) : Page → Nat := fun p => pages.count p

@[simp] theorem tally_nil : tally ([] : List Page) = 0 := rfl

theorem tally_append (first second : List Page) :
    tally (first ++ second) = tally first + tally second := by
  funext p
  exact List.count_append

theorem tally_cons (page : Page) (pages : List Page) :
    tally (page :: pages) = tally [page] + tally pages := tally_append [page] pages

theorem tally_perm {first second : List Page} (perm : first.Perm second) :
    tally first = tally second := by
  funext p
  exact perm.count_eq p

variable {p : Page} {pages : List Page}

theorem tally_pos : 0 < tally pages p ↔ p ∈ pages := List.count_pos_iff

theorem tally_self (p : Page) : tally [p] p = 1 := List.count_singleton_self

theorem tally_ne {q : Page} (ne : q ≠ p) : tally [p] q = 0 :=
  List.count_eq_zero.mpr fun member => ne (List.mem_singleton.mp member)

/-!
An ownership is a function from pages to numbers: how often somebody owns the
page.  A piece of a program is described with the ownership it starts from and
the one it ends with, and with nothing else; whatever its surroundings own is
added on both sides.
-/

/-- No page is free and owned, free twice or owned twice, and every page in
question is a good one. -/
structure Separate (ok : Page → Prop) (h : Heap Page Content) (own : Page → Nat) : Prop where
  single : ∀ p, tally h.freelist p + own p ≤ 1
  good : ∀ p, 0 < tally h.freelist p + own p → ok p

/-- What a piece of a program owns changes from `own` to `own'`: pages go to
the free list and come from it, and only pages that were free or owned are
written. -/
structure Moves (own own' : Page → Nat) (h h' : Heap Page Content) : Prop where
  conserve : ∀ p, tally h'.freelist p + own' p = tally h.freelist p + own p
  frame : ∀ p, tally h.freelist p + own p = 0 → h'.mem p = h.mem p

section Separate

variable {ok : Page → Prop} {h : Heap Page Content} {own rest : Page → Nat}

/-- A part of what is owned is separate too. -/
theorem Separate.left (sep : Separate ok h (own + rest)) : Separate ok h own := by
  constructor
  · intro p
    have := sep.single p
    simp only [Pi.add_apply] at this
    omega
  · intro p _
    apply sep.good p
    simp only [Pi.add_apply]
    omega

theorem Separate.right (sep : Separate ok h (own + rest)) : Separate ok h rest := by
  rw [add_comm] at sep
  exact sep.left

theorem Separate.mono {less : Page → Nat} (sep : Separate ok h own)
    (fewer : ∀ p, less p ≤ own p) : Separate ok h less := by
  constructor
  · intro p
    exact Nat.le_trans (Nat.add_le_add_left (fewer p) _) (sep.single p)
  · intro p here
    exact sep.good p (Nat.lt_of_lt_of_le here (Nat.add_le_add_left (fewer p) _))

/-- What one part owns is neither free nor owned by the other part. -/
theorem Separate.outside (sep : Separate ok h (own + rest)) (owned : 0 < rest p) :
    tally h.freelist p + own p = 0 := by
  have := sep.single p
  simp only [Pi.add_apply] at this
  omega

theorem Separate.nodup (sep : Separate ok h (tally pages)) : pages.Nodup := by
  rw [List.nodup_iff_count_le_one]
  intro p
  have single := sep.single p
  simp only [tally] at single ⊢
  omega

end Separate

namespace Moves

variable {ok : Page → Prop} {own own' own'' rest : Page → Nat} {h h' h'' : Heap Page Content}

theorem refl : Moves own own h h := ⟨fun _ => rfl, fun _ _ => rfl⟩

theorem trans (first : Moves own own' h h') (second : Moves own' own'' h' h'') :
    Moves own own'' h h'' := by
  constructor
  · intro p
    rw [second.conserve, first.conserve]
  · intro p out
    rw [second.frame p (by rw [first.conserve, out]), first.frame p out]

section

variable (moves : Moves own own' h h')
include moves

/-- The surroundings keep what they own. -/
theorem add (rest : Page → Nat) : Moves (own + rest) (own' + rest) h h' := by
  constructor
  · intro p
    have := moves.conserve p
    simp only [Pi.add_apply]
    omega
  · intro p out
    apply moves.frame p
    simp only [Pi.add_apply] at out
    omega

/-- The same with what the surroundings own written first. -/
theorem add_left (rest : Page → Nat) : Moves (rest + own) (rest + own') h h' := by
  rw [add_comm rest, add_comm rest]
  exact moves.add rest

theorem separate (pre : Separate ok h own) : Separate ok h' own' := by
  constructor
  · intro p
    rw [moves.conserve]
    exact pre.single p
  · intro p here
    rw [moves.conserve] at here
    exact pre.good p here

/-- What the surroundings own is not written. -/
theorem kept (pre : Separate ok h (own + rest)) (owned : 0 < rest p) :
    h'.mem p = h.mem p := moves.frame p (pre.outside owned)

end

variable {page : Page}

/-- The first free page is handed out and may be filled. -/
theorem alloc (free : h.freelist = page :: pages) (left : h'.freelist = pages)
    (others : ∀ p, p ≠ page → h'.mem p = h.mem p) : Moves own (own + tally [page]) h h' := by
  have split : tally h.freelist = tally [page] + tally pages := by rw [free, tally_cons]
  constructor
  · intro p
    rw [left, split]
    simp only [Pi.add_apply]
    omega
  intro p out
  apply others
  rintro rfl
  rw [split, Pi.add_apply, tally_self] at out
  omega

/-- An owned page goes to the free list and may be filled. -/
theorem free (pushed : h'.freelist = page :: h.freelist)
    (others : ∀ p, p ≠ page → h'.mem p = h.mem p) : Moves (own + tally [page]) own h h' := by
  constructor
  · intro p
    rw [pushed, tally_cons]
    simp only [Pi.add_apply]
    omega
  intro p out
  apply others
  rintro rfl
  rw [Pi.add_apply, tally_self] at out
  omega

/-- An owned page is written. -/
theorem write (page : Page) (owned : 0 < own page) (same : h'.freelist = h.freelist)
    (others : ∀ p, p ≠ page → h'.mem p = h.mem p) : Moves own own h h' := by
  constructor
  · intro p
    rw [same]
  · intro p _
    apply others
    rintro rfl
    omega

end Moves

end PageHeap

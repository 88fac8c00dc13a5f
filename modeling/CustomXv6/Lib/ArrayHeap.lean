/-
Module: CustomXv6.Lib.ArrayHeap
Purpose: Binary min-heaps laid out level by level in an array.
Trusted boundary: none
Main exports: siftUp, siftDown, Ordered
-/
import Mathlib.Data.Multiset.Range
import Mathlib.Tactic.Linarith

namespace ArrayHeap

open Function

variable {α κ : Type*}
variable {a b i n : Nat}

/-!
The heap is the first `n` entries of the array, a function on indices.  Both sifting loops take
their comparison as a Boolean parameter, so that a program whose loop compares in its own way is
an instance, and the order lemmas say which comparisons restore the heap order.
-/

def parent (i : Nat) : Nat := (i - 1) / 2

theorem parent_lt (pos : 0 < i) : parent i < i := by
  unfold parent
  omega

def swap (h : Nat → α) (a b : Nat) : Nat → α :=
  fun k => if k = a then h b else if k = b then h a else h k

@[simp] theorem swap_left (h : Nat → α) (a b : Nat) : swap h a b a = h b := by
  simp [swap]

@[simp] theorem swap_right (h : Nat → α) (a b : Nat) : swap h a b b = h a := by
  by_cases same : b = a
  · subst same
    simp [swap]
  · simp [swap, same]

theorem swap_of_ne (h : Nat → α) {k : Nat} (notA : k ≠ a) (notB : k ≠ b) : swap h a b k = h k := by
  simp [swap, notA, notB]

/-- Move the entry at `i` towards the root.  `stops x y` says that the loop
leaves entry `y` below parent `x`. -/
def siftUp (stops : α → α → Bool) (h : Nat → α) (i : Nat) : Nat → α :=
  if i = 0 then h
  else if stops (h (parent i)) (h i) then h
  else siftUp stops (swap h (parent i) i) (parent i)
termination_by i
decreasing_by exact parent_lt (by omega)

/-- The index the downward loop continues with: the current one, or a child
inside the heap that `prefers` puts before it, the right child being compared
with the winner of the first comparison. -/
def smallest (prefers : α → α → Bool) (h : Nat → α) (n i : Nat) : Nat :=
  let first := if 2 * i + 1 < n ∧ prefers (h (2 * i + 1)) (h i) then 2 * i + 1 else i
  if 2 * i + 2 < n ∧ prefers (h (2 * i + 2)) (h first) then 2 * i + 2 else first

theorem smallest_cases (prefers : α → α → Bool) (h : Nat → α) (n i : Nat) :
    smallest prefers h n i = i ∨
      (i < smallest prefers h n i ∧ smallest prefers h n i < n ∧
        parent (smallest prefers h n i) = i) := by
  unfold smallest parent
  grind

/-- Move the entry at `i` towards the leaves of the heap of size `n`. -/
def siftDown (prefers : α → α → Bool) (h : Nat → α) (n i : Nat) : Nat → α :=
  if smallest prefers h n i = i then h
  else siftDown prefers (swap h i (smallest prefers h n i)) n
    (smallest prefers h n i)
termination_by n - i
decreasing_by
  rcases smallest_cases prefers h n i with same | ⟨above, lt, _⟩
  · contradiction
  · omega

/-- The entries the upward loop compares on its way. -/
def siftUpReads (stops : α → α → Bool) (h : Nat → α) (i : Nat) : List α :=
  if i = 0 then []
  else h (parent i) :: h i ::
    if stops (h (parent i)) (h i) then []
    else siftUpReads stops (swap h (parent i) i) (parent i)
termination_by i
decreasing_by exact parent_lt (by omega)

/-- The entries the downward loop compares on its way. -/
def siftDownReads (prefers : α → α → Bool) (h : Nat → α) (n i : Nat) : List α :=
  if 2 * i + 1 < n then
    h i :: h (2 * i + 1) :: ((if 2 * i + 2 < n then [h (2 * i + 2)] else []) ++
      if smallest prefers h n i = i then []
      else siftDownReads prefers (swap h i (smallest prefers h n i)) n (smallest prefers h n i))
  else []
termination_by n - i
decreasing_by
  rcases smallest_cases prefers h n i with same | ⟨above, lt, _⟩
  · contradiction
  · omega

/-! ### Contents -/

def contents (h : Nat → α) (n : Nat) : Multiset α := (Multiset.range n).map h

theorem mem_contents {h : Nat → α} {x : α} : x ∈ contents h n ↔ ∃ i, i < n ∧ h i = x := by
  simp [contents]

theorem contents_congr {h h' : Nat → α} (same : ∀ i, i < n → h i = h' i) :
    contents h n = contents h' n :=
  Multiset.map_congr rfl fun i mem => same i (by simpa using mem)

theorem contents_succ (h : Nat → α) (n : Nat) : contents h (n + 1) = h n ::ₘ contents h n := by
  simp [contents, Multiset.range_succ]

private theorem range_map_swap (aInside : a < n) (bInside : b < n) :
    (Multiset.range n).map (Equiv.swap a b) = Multiset.range n := by
  have nodup : ((Multiset.range n).map (Equiv.swap a b)).Nodup :=
    (Multiset.nodup_range n).map (Equiv.swap a b).injective
  apply (Multiset.Nodup.ext nodup (Multiset.nodup_range n)).mpr
  intro k
  constructor
  · intro mem
    obtain ⟨_, lt, rfl⟩ := Multiset.mem_map.mp mem
    rw [Multiset.mem_range] at lt ⊢
    rw [Equiv.swap_apply_def]
    split_ifs <;> omega
  intro mem
  rw [Multiset.mem_range] at mem
  refine Multiset.mem_map.mpr ⟨Equiv.swap a b k, ?_, Equiv.swap_apply_self a b k⟩
  rw [Multiset.mem_range, Equiv.swap_apply_def]
  split_ifs <;> omega

theorem contents_swap (h : Nat → α) (aInside : a < n) (bInside : b < n) :
    contents (swap h a b) n = contents h n := by
  have factored : swap h a b = h ∘ Equiv.swap a b := by
    funext k
    simp only [swap, Function.comp_apply, Equiv.swap_apply_def]
    split_ifs <;> rfl
  rw [contents, factored, ← Multiset.map_map, range_map_swap aInside bInside, contents]

theorem contents_siftUp (stops : α → α → Bool) (h : Nat → α) (lt : i < n) :
    contents (siftUp stops h i) n = contents h n := by
  fun_induction siftUp stops h i with
  | case1 => rfl
  | case2 => rfl
  | case3 h i _ _ ih =>
    have below : parent i < i := parent_lt (by omega)
    rw [ih (by omega), contents_swap h (by omega) lt]

theorem contents_siftDown (prefers : α → α → Bool) (h : Nat → α) (lt : i < n) :
    contents (siftDown prefers h n i) n = contents h n := by
  fun_induction siftDown prefers h n i with
  | case1 => rfl
  | case2 h i _ ih =>
    rcases smallest_cases prefers h n i with _ | ⟨_, childInside, _⟩
    · contradiction
    · rw [ih childInside, contents_swap h lt childInside]

theorem mem_contents_of_siftUpReads (stops : α → α → Bool) (h : Nat → α) (lt : i < n) :
    ∀ x ∈ siftUpReads stops h i, x ∈ contents h n := by
  fun_induction siftUpReads stops h i with
  | case1 => simp
  | case2 h i _ ih =>
    have below : parent i < i := parent_lt (by omega)
    have rest := ih (by omega)
    rw [contents_swap h (by omega) lt] at rest
    intro x mem
    simp only [List.mem_cons] at mem
    rcases mem with rfl | rfl | later
    · exact mem_contents.mpr ⟨_, by omega, rfl⟩
    · exact mem_contents.mpr ⟨_, lt, rfl⟩
    split at later
    · simp at later
    · exact rest x later

theorem mem_contents_of_siftDownReads (prefers : α → α → Bool) (h : Nat → α) (lt : i < n) :
    ∀ x ∈ siftDownReads prefers h n i, x ∈ contents h n := by
  fun_induction siftDownReads prefers h n i with
  | case1 h i hasLeft ih =>
    intro x mem
    simp only [List.mem_cons, List.mem_append] at mem
    rcases mem with rfl | rfl | right | later
    · exact mem_contents.mpr ⟨_, lt, rfl⟩
    · exact mem_contents.mpr ⟨_, hasLeft, rfl⟩
    · split at right
      · rename_i hasRight
        rw [List.mem_singleton.mp right]
        exact mem_contents.mpr ⟨_, hasRight, rfl⟩
      · simp at right
    split at later
    · simp at later
    rename_i moves
    rcases smallest_cases prefers h n i with _ | ⟨_, childInside, _⟩
    · contradiction
    · have rest := ih moves childInside x later
      rwa [contents_swap h lt childInside] at rest
  | case2 => simp

/-! ### Heap order -/

section Order

variable [LinearOrder κ] (key : α → κ)
variable {h : Nat → α} {prefers : α → α → Bool}

/-- Every entry is at or after its parent. -/
def Ordered (h : Nat → α) (n : Nat) : Prop := ∀ i, 0 < i → i < n → key (h (parent i)) ≤ key (h i)

/-- The root of an ordered heap is minimal. -/
theorem Ordered.root_le (ordered : Ordered key h n) : ∀ i, i < n → key (h 0) ≤ key (h i) := by
  intro i
  induction i using Nat.strongRecOn with
  | ind i ih =>
    intro lt
    by_cases root : i = 0
    · rw [root]
    have below : parent i < i := parent_lt (by omega)
    exact (ih (parent i) below (by omega)).trans
      (ordered i (by omega) lt)

/-- The only edge that may be out of order enters `i`, and the parent of `i`
may safely move down to `i`. -/
structure SiftUpReady (h : Nat → α) (n i : Nat) : Prop where
  except : ∀ j, 0 < j → j < n → j ≠ i → key (h (parent j)) ≤ key (h j)
  grand : 0 < i → ∀ j, 0 < j → j < n → parent j = i → key (h (parent i)) ≤ key (h j)

/-- The only edges that may be out of order leave `i`, and the children of `i`
may safely move up to `i`. -/
structure SiftDownReady (h : Nat → α) (n i : Nat) : Prop where
  except : ∀ j, 0 < j → j < n → parent j ≠ i → key (h (parent j)) ≤ key (h j)
  grand : 0 < i → ∀ j, 0 < j → j < n → parent j = i → key (h (parent i)) ≤ key (h j)

variable {key}

theorem SiftUpReady.move (ready : SiftUpReady key h n i) (pos : 0 < i) (lt : i < n)
    (smaller : key (h i) < key (h (parent i))) :
    SiftUpReady key (swap h (parent i) i) n (parent i) := by
  have below : parent i < i := parent_lt pos
  constructor
  · intro j jPos jInside notParent
    by_cases atI : j = i
    · subst atI
      simpa using smaller.le
    rw [swap_of_ne h notParent atI]
    by_cases childOfI : parent j = i
    · rw [childOfI, swap_right]
      exact ready.grand pos j jPos jInside childOfI
    by_cases sibling : parent j = parent i
    · have edge := ready.except j jPos jInside atI
      rw [sibling] at edge ⊢
      rw [swap_left]
      exact smaller.le.trans edge
    · rw [swap_of_ne h sibling childOfI]
      exact ready.except j jPos jInside atI
  intro parentPos j jPos jInside childOfParent
  have grandBelow : parent (parent i) < parent i := parent_lt parentPos
  have grandEdge := ready.except (parent i) parentPos (by omega) (by omega)
  rw [swap_of_ne h (by omega) (by omega)]
  by_cases atI : j = i
  · subst atI
    rw [swap_right]
    exact grandEdge
  have edge := ready.except j jPos jInside atI
  rw [swap_of_ne h (by have := parent_lt jPos; omega) atI]
  rw [childOfParent] at edge
  exact grandEdge.trans edge

variable (key) in
/-- The upward loop restores the order when it stops exactly at parents that
are at or before the moving entry. -/
theorem siftUp_ordered {stops : α → α → Bool} (sound : ∀ x y, stops x y = true ↔ key x ≤ key y)
    (lt : i < n) (ready : SiftUpReady key h n i) : Ordered key (siftUp stops h i) n := by
  fun_induction siftUp stops h i with
  | case1 =>
    intro j jPos jInside
    exact ready.except j jPos jInside (by omega)
  | case2 _ i _ stopped =>
    intro j jPos jInside
    by_cases atI : j = i
    · subst atI
      exact (sound _ _).mp stopped
    · exact ready.except j jPos jInside atI
  | case3 h i _ goesOn ih =>
    have below : parent i < i := parent_lt (by omega)
    have smaller : key (h i) < key (h (parent i)) := by
      rw [← not_le, ← sound]
      exact goesOn
    exact ih (by omega) (ready.move (by omega) lt smaller)

/-- `a` is met on the way from `i` to the root. -/
inductive Ancestor (i : Nat) : Nat → Prop where
  | parent (pos : 0 < i) : Ancestor i (parent i)
  | up {a : Nat} (rest : Ancestor i a) (pos : 0 < a) : Ancestor i (ArrayHeap.parent a)

theorem Ancestor.of_parent (pos : 0 < i) (above : Ancestor (ArrayHeap.parent i) a) :
    Ancestor i a := by
  induction above with
  | parent parentPos => exact .up (.parent pos) parentPos
  | up _ aPos ih => exact .up ih aPos

theorem Ancestor.lt (above : Ancestor i a) : a < i := by
  induction above with
  | parent pos => exact parent_lt pos
  | up _ pos ih => exact (parent_lt pos).trans ih

variable (key) in
/-- Going up from a position, an ordered heap does not grow. -/
theorem Ancestor.key_le_parent (lt : i < n)
    (edges : ∀ j, 0 < j → j < n → j ≠ i → key (h (ArrayHeap.parent j)) ≤ key (h j))
    (above : Ancestor i a) : key (h a) ≤ key (h (ArrayHeap.parent i)) := by
  induction above with
  | parent => exact le_refl _
  | @up a rest pos ih =>
    have below : a < i := rest.lt
    exact (edges a pos (by omega) (by omega)).trans ih

omit [LinearOrder κ] in
/-- Two upward loops agree when their comparisons agree on the way to the root. -/
theorem siftUp_congr {stops stops' : α → α → Bool}
    (agree : ∀ a, Ancestor i a → stops (h a) (h i) = stops' (h a) (h i)) :
    siftUp stops h i = siftUp stops' h i := by
  fun_induction siftUp stops h i with
  | case1 => simp [siftUp]
  | case2 _ _ notRoot stopped =>
    rw [agree _ (.parent (by omega))] at stopped
    rw [siftUp, if_neg notRoot, if_pos stopped]
  | case3 h i notRoot goesOn ih =>
    have pos : 0 < i := by omega
    rw [agree _ (.parent pos)] at goesOn
    rw [siftUp.eq_def stops', if_neg notRoot, if_neg goesOn]
    apply ih
    intro a above
    have below := above.lt
    have parentBelow := parent_lt pos
    rw [swap_of_ne h (by omega) (by omega), swap_left]
    exact agree a (above.of_parent pos)

section

variable (sound : ∀ x y, prefers x y = true ↔ key x < key y)
include sound

/-- The index the downward loop continues with is minimal among the position
and its children. -/
theorem key_smallest_le (h : Nat → α) (n i : Nat) :
    key (h (smallest prefers h n i)) ≤ key (h i) ∧
      ∀ j, 0 < j → j < n → parent j = i → key (h (smallest prefers h n i)) ≤ key (h j) := by
  have children : ∀ j, 0 < j → parent j = i → j = 2 * i + 1 ∨ j = 2 * i + 2 := by
    unfold parent
    omega
  unfold smallest
  constructor
  · grind
  intro j jPos _ childOfI
  rcases children j jPos childOfI with left | right
  · subst left
    grind
  · subst right
    grind

theorem key_smallest_lt (moves : smallest prefers h n i ≠ i) :
    key (h (smallest prefers h n i)) < key (h i) := by
  unfold smallest at moves ⊢
  grind

theorem SiftDownReady.move (ready : SiftDownReady key h n i) (moves : smallest prefers h n i ≠ i) :
    SiftDownReady key (swap h i (smallest prefers h n i)) n (smallest prefers h n i) := by
  obtain ⟨_, minimal⟩ := key_smallest_le sound h n i
  have smaller := key_smallest_lt sound moves
  rcases smallest_cases prefers h n i with _ | ⟨above, lt, childOfI⟩
  · contradiction
  generalize smallest prefers h n i = c at moves minimal smaller above lt childOfI
  constructor
  · intro j jPos jInside notBelowC
    by_cases atC : j = c
    · subst atC
      rw [childOfI, swap_left, swap_right]
      exact smaller.le
    by_cases atI : j = i
    · -- the edge above `i`: its new entry is one of the old children of `i`
      subst atI
      have below := parent_lt jPos
      rw [swap_left, swap_of_ne h (by omega) (by omega)]
      exact ready.grand jPos c (by omega) lt childOfI
    rw [swap_of_ne h atI atC]
    by_cases sibling : parent j = i
    · rw [sibling, swap_left]
      exact minimal j jPos jInside sibling
    · rw [swap_of_ne h sibling notBelowC]
      exact ready.except j jPos jInside sibling
  intro _ j jPos jInside childOfC
  have below := parent_lt jPos
  rw [childOfI, swap_left, swap_of_ne h (by omega) (by omega)]
  have edge := ready.except j jPos jInside (by omega)
  rwa [childOfC] at edge

end

variable (key) in
/-- The downward loop restores the order when it continues with a minimal, smaller child. -/
theorem siftDown_ordered (sound : ∀ x y, prefers x y = true ↔ key x < key y)
    (ready : SiftDownReady key h n i) : Ordered key (siftDown prefers h n i) n := by
  fun_induction siftDown prefers h n i with
  | case1 h i same =>
    obtain ⟨_, minimal⟩ := key_smallest_le sound h n i
    rw [same] at minimal
    intro j jPos jInside
    by_cases childOfI : parent j = i
    · rw [childOfI]
      exact minimal j jPos jInside childOfI
    · exact ready.except j jPos jInside childOfI
  | case2 _ _ moves ih =>
    exact ih (ready.move sound moves)

/-- Writing a new last entry leaves only the edge above it in question. -/
theorem SiftUpReady.of_append (ordered : Ordered key h n) (x : α) :
    SiftUpReady key (update h n x) (n + 1) n := by
  constructor
  · intro j jPos jInside _
    have below := parent_lt jPos
    rw [update_of_ne (by omega), update_of_ne (by omega)]
    exact ordered j jPos (by omega)
  · intro _ j jPos _ _
    have below := parent_lt jPos
    omega

/-- Overwriting the root leaves only the edges below it in question. -/
theorem SiftDownReady.of_root {m : Nat} (ordered : Ordered key h n) (within : m ≤ n) (x : α) :
    SiftDownReady key (update h 0 x) m 0 := by
  constructor
  · intro j jPos _ notRootChild
    rw [update_of_ne notRootChild, update_of_ne (by omega)]
    exact ordered j jPos (by omega)
  · intro _
    omega

end Order

end ArrayHeap

/-
Module: CustomXv6.Lib.LinkedRing
Purpose: Circular lists with two links or one per element; how often blocks cover an address.
Trusted boundary: none
Main exports: LinkedRing.Ring, CircularList.Path, Tiling.cover
-/
import Mathlib.Data.List.Nodup

namespace LinkedRing

open Function

variable {ι : Type*} {next prev : ι → ι} {a b c : ι} {xs ys : List ι}

/-- Following `next` from `a` leads through the elements of the list to `b`, and
following `prev` from `b` leads back. -/
def Chain (next prev : ι → ι) : ι → List ι → ι → Prop
  | a, [], b => next a = b ∧ prev b = a
  | a, x :: xs, b => next a = x ∧ prev x = a ∧ Chain next prev x xs b

theorem Chain.append_iff : Chain next prev a (xs ++ b :: ys) c ↔
    Chain next prev a xs b ∧ Chain next prev b ys c := by
  induction xs generalizing a with
  | nil => simp only [List.nil_append, Chain, and_assoc]
  | cons _ _ ih =>
    simp only [List.cons_append, Chain, ih, and_assoc]

section

variable (chain : Chain next prev a xs b)
include chain

/-- The chain depends on no other links than its own. -/
theorem Chain.congr {next' prev' : ι → ι} (sameNext : ∀ x, x ∈ a :: xs → next' x = next x)
    (samePrev : ∀ x, x ∈ xs ∨ x = b → prev' x = prev x) : Chain next' prev' a xs b := by
  induction xs generalizing a with
  | nil =>
    constructor
    · rw [sameNext a List.mem_cons_self]
      exact chain.1
    · rw [samePrev b (.inr rfl)]
      exact chain.2
  | cons x _ ih =>
    obtain ⟨first, back, rest⟩ := chain
    refine ⟨?_, ?_, ?_⟩
    · rw [sameNext a List.mem_cons_self]
      exact first
    · rw [samePrev x (.inl List.mem_cons_self)]
      exact back
    · apply ih rest
      · exact fun y mem => sameNext y (.tail a mem)
      · intro y mem
        exact samePrev y (mem.imp_left (.tail x))

/-- Read in the other direction. -/
theorem Chain.reverse : Chain prev next b xs.reverse a := by
  induction xs generalizing a with
  | nil => exact ⟨chain.2, chain.1⟩
  | cons _ _ ih =>
    obtain ⟨first, back, rest⟩ := chain
    rw [List.reverse_cons]
    exact Chain.append_iff.mpr ⟨ih rest, back, first⟩

theorem Chain.next_mem : next a ∈ xs ∨ next a = b := by
  cases xs with
  | nil => exact .inr chain.1
  | cons => exact .inl (chain.1 ▸ (.head _))

theorem Chain.prev_mem : prev b ∈ a :: xs := by
  cases chain.reverse.next_mem with
  | inl lt => exact .tail a (List.mem_reverse.mp lt)
  | inr first =>
    rw [first]
    exact .head _

end

section Unlink

variable [DecidableEq ι]

/-- Two chains with one element between them become one when that is unlinked. -/
theorem Chain.unlink (first : Chain next prev a xs b) (second : Chain next prev b ys c)
    (distinct : (a :: (xs ++ b :: ys)).Nodup) (fresh : c ∉ xs ++ b :: ys) :
    Chain (update next (prev b) (next b)) (update prev (next b) (prev b)) a (xs ++ ys) c := by
  have after := second.next_mem
  induction xs generalizing a with
  | nil =>
    obtain ⟨_, back⟩ := first
    have aFresh : a ∉ b :: ys := (List.nodup_cons.mp distinct).1
    cases ys with
    | nil =>
      obtain ⟨last, _⟩ := second
      constructor
      · rw [back, update_self]
        exact last
      · rw [last, update_self]
        exact back
    | cons y ys =>
      obtain ⟨nextB, _, rest⟩ := second
      have yFresh : y ∉ ys :=
        (List.nodup_cons.mp (List.nodup_cons.mp (List.nodup_cons.mp distinct).2).2).1
      refine ⟨?_, ?_, rest.congr (fun x mem => ?_) (fun x mem => ?_)⟩
      · rw [back, update_self]
        exact nextB
      · rw [nextB, update_self]
        exact back
      · apply update_of_ne
        rw [back]
        rintro rfl
        exact aFresh (.tail b mem)
      apply update_of_ne
      rw [nextB]
      rintro rfl
      cases mem with
      | inl lt => exact yFresh lt
      | inr same =>
        subst same
        exact fresh (.tail b (.head _))
  | cons x xs ih =>
    obtain ⟨here, back, rest⟩ := first
    obtain ⟨aFresh, distinct'⟩ := List.nodup_cons.mp distinct
    have xFresh : x ∉ xs ++ b :: ys := (List.nodup_cons.mp distinct').1
    refine ⟨?_, ?_, ih rest distinct' fun mem => ?_⟩
    · rw [update_of_ne]
      · exact here
      rintro rfl
      apply aFresh
      have mem := rest.prev_mem
      rw [List.cons_append, List.mem_cons, List.mem_append]
      exact (List.mem_cons.mp mem).imp_right .inl
    · rw [update_of_ne]
      · exact back
      rintro rfl
      cases after with
      | inl lt =>
        exact xFresh (List.mem_append_right _ (.tail b lt))
      | inr same =>
        exact fresh (same ▸ (.head _))
    · exact fresh (.tail x mem)

end Unlink

/-- The links form one ring through the head and the elements of the list, in
this order. -/
structure Ring (next prev : ι → ι) (head : ι) (order : List ι) : Prop where
  nodup : (head :: order).Nodup
  chain : Chain next prev head order head

section Rings

variable {head : ι} {order : List ι}

theorem Ring.head_not_mem (ring : Ring next prev head order) : head ∉ order :=
  (List.nodup_cons.mp ring.nodup).1

variable [DecidableEq ι]

/-- The links after `b->next->prev = b->prev; b->prev->next = b->next`. -/
theorem Ring.unlink (ring : Ring next prev head order) (mem : b ∈ order) :
    Ring (update next (prev b) (next b)) (update prev (next b) (prev b)) head (order.erase b) := by
  obtain ⟨xs, ys, rfl⟩ := List.append_of_mem mem
  have distinct := ring.nodup
  have inner := (List.nodup_cons.mp distinct).2
  have absent : b ∉ xs := by
    intro lt
    exact (List.nodup_append.mp inner).2.2 b lt b (.head _) rfl
  have erased : (xs ++ b :: ys).erase b = xs ++ ys := by
    rw [List.erase_append_right _ absent, List.erase_cons_head]
  obtain ⟨first, second⟩ := Chain.append_iff.mp ring.chain
  rw [erased]
  constructor
  · apply List.Nodup.sublist _ distinct
    exact ((List.sublist_cons_self b ys).append_left xs).cons_cons head
  · exact first.unlink second distinct ring.head_not_mem

/-- The links after `b->next = head.next; b->prev = &head; head.next->prev = b;
head.next = b`, for an element that is not in the ring. -/
theorem Ring.insert (ring : Ring next prev head order) (fresh : b ∉ head :: order) :
    Ring (update (update next b (next head)) head b)
      (update (update prev b head) (update next b (next head) head) b) head (b :: order) := by
  obtain ⟨notHead, notIn⟩ := not_or.mp (List.mem_cons.not.mp fresh)
  obtain ⟨headFresh, inner⟩ := List.nodup_cons.mp ring.nodup
  rw [update_of_ne (Ne.symm notHead)]
  have target : b ≠ next head := by
    rintro rfl
    cases ring.chain.next_mem with
    | inl lt => exact notIn lt
    | inr same => exact notHead same
  constructor
  · rw [List.nodup_cons, List.mem_cons, not_or]
    exact ⟨⟨Ne.symm notHead, headFresh⟩, List.nodup_cons.mpr ⟨notIn, inner⟩⟩
  refine ⟨update_self _ _ _, ?_, ?_⟩
  · rw [update_of_ne target, update_self]
  have chain := ring.chain
  cases order with
  | nil =>
    constructor
    · rw [update_of_ne notHead, update_self]
      exact chain.1
    · rw [chain.1, update_self]
  | cons x =>
    obtain ⟨first, _, rest⟩ := chain
    obtain ⟨xFresh, _⟩ := List.nodup_cons.mp inner
    refine ⟨?_, ?_, rest.congr (fun y mem => ?_) (fun y mem => ?_)⟩
    · rw [update_of_ne notHead, update_self]
      exact first
    · rw [first, update_self]
    · rw [update_of_ne, update_of_ne]
      · rintro rfl
        exact notIn mem
      · rintro rfl
        exact headFresh mem
    rw [update_of_ne, update_of_ne]
    · rintro rfl
      cases mem with
      | inl lt => exact notIn (.tail x lt)
      | inr same => exact notHead same
    rw [first]
    rintro rfl
    cases mem with
    | inl lt => exact xFresh lt
    | inr same => exact headFresh (same ▸ (.head _))

/-- Walk along the links from `b` until the head or an element with the property. -/
def scan (step : ι → ι) (head : ι) (p : ι → Bool) : (fuel : Nat) → ι → Option ι
  | 0, _ => none
  | fuel + 1, b => if b = head then none else if p b then some b else scan step head p fuel (step b)

variable {fuel : Nat}

theorem Chain.scan (p : ι → Bool) (chain : Chain next prev a xs head) (fresh : head ∉ xs)
    (enough : xs.length < fuel) : scan next head p fuel (next a) = xs.find? p := by
  induction xs generalizing a fuel with
  | nil =>
    cases fuel with
    | zero => exact absurd enough (Nat.not_lt_zero _)
    | succ =>
      rw [LinkedRing.scan, if_pos chain.1]
      rfl
  | cons x _ ih =>
    obtain ⟨first, _, rest⟩ := chain
    obtain ⟨ne, fresh'⟩ := not_or.mp (List.mem_cons.not.mp fresh)
    cases fuel with
    | zero => exact absurd enough (Nat.not_lt_zero _)
    | succ _ =>
      rw [LinkedRing.scan, first, if_neg (Ne.symm ne), List.find?_cons]
      split
      · rename_i found
        rw [found]
      rename_i other
      rw [Bool.not_eq_true] at other
      rw [other]
      exact ih rest fresh' (Nat.lt_of_succ_lt_succ enough)

/-- Walking forwards finds the first element in the order of the list. -/
theorem Ring.scan_forward (ring : Ring next prev head order) (p : ι → Bool)
    (enough : order.length < fuel) : scan next head p fuel (next head) = order.find? p :=
  ring.chain.scan p ring.head_not_mem enough

/-- Walking backwards finds the last one. -/
theorem Ring.scan_backward (ring : Ring next prev head order) (p : ι → Bool)
    (enough : order.length < fuel) : scan prev head p fuel (prev head) = order.reverse.find? p := by
  apply ring.chain.reverse.scan p
  · exact fun mem => ring.head_not_mem (List.mem_reverse.mp mem)
  · rwa [List.length_reverse]

end Rings

end LinkedRing

namespace CircularList

variable {ι : Type*} {next next' : ι → ι} {a b c p : ι} {xs ys front back : List ι}

/-- Following the links from `a` leads through the elements of the list to `b`. -/
def Path (next : ι → ι) : ι → List ι → ι → Prop
  | a, [], b => next a = b
  | a, x :: xs, b => next a = x ∧ Path next x xs b

theorem Path.append_iff : Path next a (xs ++ b :: ys) c ↔ Path next a xs b ∧ Path next b ys c := by
  induction xs generalizing a with
  | nil => rfl
  | cons _ _ ih =>
    simp only [List.cons_append, Path, ih, and_assoc]

/-- A path depends on no other links than its own, and on where its first link leads. -/
theorem Path.congr (path : Path next a xs c) (first : next' b = next a)
    (same : ∀ x ∈ xs, next' x = next x) : Path next' b xs c := by
  induction xs generalizing a b with
  | nil => exact first.trans path
  | cons x _ ih =>
    constructor
    · exact first.trans path.1
    · apply ih path.2 (same x (.head _))
      exact fun y mem => same y (.tail x mem)

/-- A circular list read from another of its elements on. -/
theorem Path.rotate (path : Path next a (xs ++ b :: ys) a) : Path next b (ys ++ a :: xs) b := by
  obtain ⟨first, second⟩ := Path.append_iff.mp path
  exact Path.append_iff.mpr ⟨second, first⟩

/-- A circular list read from any of its elements on. -/
theorem Path.rotate_to (path : Path next a xs a) (mem : p ∈ a :: xs) :
    ∃ rest, Path next p rest p ∧ (p :: rest).Perm (a :: xs) := by
  cases mem with
  | head => exact ⟨xs, path, .refl _⟩
  | tail _ mem =>
    obtain ⟨front, back, rfl⟩ := List.append_of_mem mem
    refine ⟨back ++ a :: front, path.rotate, ?_⟩
    exact @List.perm_append_comm _ (p :: back) (a :: front)

/-- The path from one of its elements on. -/
theorem Path.drop (path : Path next a xs c) (split : a :: xs = front ++ p :: back) :
    Path next p back c := by
  induction front generalizing a xs with
  | nil =>
    cases split
    exact path
  | cons _ front ih =>
    obtain ⟨rfl, rfl⟩ := List.cons.inj split
    cases front with
    | nil => exact path.2
    | cons => exact ih path.2 rfl

/-- The links behind one element may be replaced by any that lead to the same end. -/
theorem Path.replace (path : Path next a xs c) (split : a :: xs = front ++ p :: back)
    (same : ∀ x ∈ front, next' x = next x) (behind : Path next' p ys c) :
    ∃ xs', a :: xs' = front ++ p :: ys ∧ Path next' a xs' c := by
  induction front generalizing a xs with
  | nil =>
    cases split
    exact ⟨ys, rfl, behind⟩
  | cons _ front ih =>
    obtain ⟨rfl, rfl⟩ := List.cons.inj split
    refine ⟨front ++ p :: ys, rfl, ?_⟩
    have head := same a (.head _)
    cases front with
    | nil => exact ⟨head.trans path.1, behind⟩
    | cons =>
      obtain ⟨_, split', path'⟩ := ih path.2 rfl
        fun z mem => same z (.tail a mem)
      obtain rfl := (List.cons.inj split').2
      exact ⟨head.trans path.1, path'⟩

theorem Path.next_mem (path : Path next a xs c) : next a ∈ xs ∨ next a = c := by
  cases xs with
  | nil => exact .inr path
  | cons => exact .inl (path.1 ▸ (.head _))

/-- Every link of a circular list leads to an element of it. -/
theorem Path.next_mem_of_mem (path : Path next a xs a) (mem : p ∈ a :: xs) : next p ∈ a :: xs := by
  obtain ⟨_, _, split⟩ := List.append_of_mem mem
  cases (path.drop split).next_mem with
  | inl lt =>
    rw [split]
    exact List.mem_append_right _ (.tail p lt)
  | inr same =>
    rw [same]
    exact .head _

/-! ### Walks -/

/-- Follow the links until an element with the property. -/
def walk (next : ι → ι) (stop : ι → Bool) : (fuel : Nat) → ι → Option ι
  | 0, _ => none
  | fuel + 1, x => if stop x then some x else walk next stop fuel (next x)

variable {fuel : Nat}

theorem Path.walk_to (stop : ι → Bool) (path : Path next a xs p)
    (pass : ∀ x ∈ a :: xs, stop x = false) (here : stop p = true) (enough : xs.length + 2 ≤ fuel) :
    walk next stop fuel a = some p := by
  induction xs generalizing a fuel with
  | nil =>
    obtain ⟨fuel, rfl⟩ : ∃ less, _ = _ + 2 := Nat.exists_eq_add_of_le' enough
    have first : next a = p := path
    rw [walk, pass a List.mem_cons_self, if_neg Bool.false_ne_true, first, walk, if_pos here]
  | cons _ _ ih =>
    obtain ⟨_, rfl⟩ := Nat.exists_eq_add_one.mpr (Nat.zero_lt_of_lt enough)
    rw [walk, pass a List.mem_cons_self, if_neg Bool.false_ne_true, path.1]
    apply ih path.2
    · exact fun y mem => pass y (.tail a mem)
    · exact Nat.le_of_succ_le_succ enough

/-- A walk stays in the circular list. -/
theorem Path.walk_some {stop : ι → Bool} {s : ι} (path : Path next a xs a) (here : s ∈ a :: xs)
    (found : walk next stop fuel s = some p) : p ∈ a :: xs ∧ stop p = true := by
  induction fuel generalizing s with
  | zero => cases found
  | succ _ ih =>
    rw [walk] at found
    split at found
    · rename_i stops
      cases found
      exact ⟨here, stops⟩
    · exact ih (path.next_mem_of_mem here) found

/-- A walk along a circular list comes to the one element with the property, from any
element of the list. -/
theorem Path.walk (stop : ι → Bool) {s : ι} (path : Path next a xs a) (distinct : (a :: xs).Nodup)
    (here : s ∈ a :: xs) (there : p ∈ a :: xs) (stops : stop p = true)
    (pass : ∀ x ∈ a :: xs, x ≠ p → stop x = false) (enough : xs.length + 1 ≤ fuel) :
    walk next stop fuel s = some p := by
  obtain ⟨_, path', perm⟩ := path.rotate_to there
  have size := perm.length_eq
  rw [List.length_cons, List.length_cons] at size
  have distinct' := perm.nodup_iff.mpr distinct
  cases perm.mem_iff.mpr here with
  | head =>
    obtain ⟨_, rfl⟩ := Nat.exists_eq_add_one.mpr (Nat.zero_lt_of_lt enough)
    rw [CircularList.walk, if_pos stops]
  | tail _ mem =>
    obtain ⟨_, back, rfl⟩ := List.append_of_mem mem
    have absent : p ∉ s :: back := fun lt =>
      (List.nodup_cons.mp distinct').1 (List.mem_append_right _ lt)
    rw [List.length_append, List.length_cons] at size
    apply (Path.append_iff.mp path').2.walk_to stop _ stops (by omega)
    intro x lt
    apply pass x
    · apply perm.mem_iff.mp
      exact .tail p (List.mem_append_right _ lt)
    · rintro rfl
      exact absent lt

end CircularList

namespace Tiling

open Function

/-- How many of the blocks that start at these addresses contain an address; a unit
has `unit` addresses. -/
def cover (unit : Nat) (size : Nat → Nat) (heads : List Nat) (addr : Nat) : Nat :=
  heads.countP fun x => decide (x ≤ addr ∧ addr < x + unit * size x)

variable {unit : Nat} {size : Nat → Nat} {heads others : List Nat} {x y addr : Nat}

theorem cover_cons : cover unit size (x :: heads) addr =
    cover unit size heads addr +
      if x ≤ addr ∧ addr < x + unit * size x then 1 else 0 := by
  simp only [cover, List.countP_cons, decide_eq_true_eq]

theorem cover_append : cover unit size (heads ++ others) addr =
    cover unit size heads addr + cover unit size others addr :=
  List.countP_append

theorem cover_perm (perm : heads.Perm others) :
    cover unit size heads addr = cover unit size others addr :=
  perm.countP_eq _

theorem cover_pos (mem : x ∈ heads) (lt : x ≤ addr ∧ addr < x + unit * size x) :
    0 < cover unit size heads addr :=
  List.countP_pos_iff.mpr ⟨x, mem, decide_eq_true lt⟩

/-- The size at another address does not matter. -/
theorem cover_update (n : Nat) (fresh : x ∉ heads) :
    cover unit (update size x n) heads addr = cover unit size heads addr := by
  apply List.countP_congr
  intro y mem
  rw [update_of_ne]
  rintro rfl
  exact fresh mem

/-- Two blocks of which the second starts where the first ends are as good as one. -/
theorem cover_join (adjacent : x + unit * size x = y) (fresh : x ∉ heads) :
    cover unit (update size x (size x + size y)) (x :: heads) addr =
      cover unit size (x :: y :: heads) addr := by
  rw [cover_cons, cover_cons, cover_cons, cover_update _ fresh, update_self, Nat.mul_add]
  split_ifs <;> omega

/-- A block as good as two of which the second starts where the first ends. -/
theorem cover_split {n : Nat} (less : n ≤ size x) (adjacent : x + unit * (size x - n) = y)
    (ne : x ≠ y) (fresh : x ∉ heads) (fresh' : y ∉ heads) :
    cover unit (update (update size x (size x - n)) y n) (x :: y :: heads) addr =
      cover unit size (x :: heads) addr := by
  have whole : unit * size x = unit * (size x - n) + unit * n := by
    rw [← Nat.mul_add, Nat.sub_add_cancel less]
  rw [cover_cons, cover_cons, cover_cons, cover_update _ fresh', cover_update _ fresh,
    update_of_ne ne, update_self, update_self, whole]
  split_ifs <;> omega

/-- Blocks that cover nothing twice do not overlap. -/
theorem apart_of_cover_le_one (single : ∀ addr, cover unit size (x :: y :: heads) addr ≤ 1)
    (some : 0 < unit * size x) (some' : 0 < unit * size y) :
    x + unit * size x ≤ y ∨ y + unit * size y ≤ x := by
  by_contra overlap
  have twice := single (max x y)
  rw [cover_cons, cover_cons] at twice
  rw [if_pos (by omega), if_pos (by omega)] at twice
  omega

/-- Blocks that are not empty and cover nothing twice start at different addresses. -/
theorem nodup_of_cover_le_one (single : ∀ addr, cover unit size heads addr ≤ 1)
    (some : ∀ x ∈ heads, 0 < unit * size x) : heads.Nodup := by
  rw [List.nodup_iff_sublist]
  intro x twice
  have lt := some x (twice.subset (.head _))
  have fewer : cover unit size [x, x] x ≤ cover unit size heads x := twice.countP_le
  have two : cover unit size [x, x] x = 2 := by
    rw [cover_cons, cover_cons, if_pos (by omega)]
    rfl
  have one := single x
  omega

end Tiling

/-
Module: CustomXv6.Lib.AdjacentSort
Purpose: Insertion sort by exchanges of neighbours, each round down to the first element.
Trusted boundary: none
Main exports: AdjacentSort.sortUpTo, sortUpTo_sorted
-/
import Mathlib.Data.List.Perm.Lattice
import Mathlib.Data.List.Range
import Mathlib.Logic.Equiv.Basic
import Mathlib.Order.Lattice

namespace AdjacentSort

variable {α κ : Type*} (key : α → κ)

section Loops

variable [LinearOrder κ]

/-- Compare the elements `j - 1` and `j` and exchange them if they are in the
wrong order. -/
def exchange (a : Nat → α) (j : Nat) : Nat → α :=
  if key (a j) < key (a (j - 1)) then
    fun k => if k = j - 1 then a j else if k = j then a (j - 1) else a k
  else a

/-- One round: exchanges at `j`, `j - 1`, down to 1. -/
def sink (a : Nat → α) : Nat → Nat → α
  | 0 => a
  | j + 1 => sink (exchange key a (j + 1)) j

/-- The rounds `0` to `n - 1`, the first of which does nothing. -/
def sortUpTo (a : Nat → α) : Nat → Nat → α
  | 0 => a
  | n + 1 => sink key (sortUpTo a n) n

end Loops

/-! ### Rearrangement -/

/-- `b` has the elements of `a` below `n` in some order, and those from `n` on in
their places. -/
def Rearranges (n : Nat) (a b : Nat → α) : Prop :=
  ∃ σ : Equiv.Perm Nat, (∀ k, n ≤ k → σ k = k) ∧ ∀ k, b k = a (σ k)

variable {n : Nat} {a b c : Nat → α}

/-- The lists of the first `n` elements are permutations of each other. -/
theorem Rearranges.perm (rearranges : Rearranges n a b) :
    ((List.range n).map b).Perm ((List.range n).map a) := by
  obtain ⟨σ, fixed, same⟩ := rearranges
  -- A number below `n` is the image of one below `n`, since those from `n` on are fixed.
  have lt : ∀ k, k < n → σ.symm k < n := by
    intro k below
    by_contra out
    have image := fixed (σ.symm k) (Nat.le_of_not_lt out)
    rw [Equiv.apply_symm_apply] at image
    omega
  have indices : ((List.range n).map σ).Perm (List.range n) := by
    rw [List.perm_ext_iff_of_nodup (List.nodup_range.map σ.injective) List.nodup_range]
    intro k
    rw [List.mem_map, List.mem_range]
    constructor
    · rintro ⟨j, mem, rfl⟩
      rw [List.mem_range] at mem
      by_contra out
      have image := fixed (σ j) (Nat.le_of_not_lt out)
      have equal := σ.injective image
      omega
    · intro below
      exact ⟨σ.symm k, List.mem_range.mpr (lt k below), σ.apply_symm_apply k⟩
  have composed : (List.range n).map b = ((List.range n).map σ).map a := by
    rw [List.map_map]
    exact List.map_congr_left fun k _ => same k
  rw [composed]
  exact indices.map a

/-- `b` rearranges `a`, and elements with equal keys stay in the order they had. -/
def StablyRearranges (n : Nat) (a b : Nat → α) : Prop :=
  ∃ σ : Equiv.Perm Nat, (∀ k, n ≤ k → σ k = k) ∧ (∀ k, b k = a (σ k)) ∧
    ∀ x y, x < y → key (b x) = key (b y) → σ x < σ y

variable {key}

theorem StablyRearranges.refl (n : Nat) (a : Nat → α) : StablyRearranges key n a a :=
  ⟨Equiv.refl Nat, fun _ _ => rfl, fun _ => rfl, fun _ _ less _ => less⟩

theorem StablyRearranges.trans (first : StablyRearranges key n a b)
    (second : StablyRearranges key n b c) : StablyRearranges key n a c := by
  obtain ⟨σ, fixed, same, stable⟩ := first
  obtain ⟨τ, fixed', same', stable'⟩ := second
  refine ⟨τ.trans σ, fun k out => ?_, fun k => ?_, fun x y less equal => ?_⟩
  · rw [Equiv.trans_apply, fixed' k out, fixed k out]
  · rw [same' k, same (τ k), Equiv.trans_apply]
  · apply stable (τ x) (τ y) (stable' x y less equal)
    rw [← same' x, ← same' y, equal]

theorem StablyRearranges.mono {m : Nat} (first : StablyRearranges key n a b) (less : n ≤ m) :
    StablyRearranges key m a b := by
  obtain ⟨σ, fixed, rest⟩ := first
  exact ⟨σ, fun k out => fixed k (less.trans out), rest⟩

theorem StablyRearranges.rearranges (first : StablyRearranges key n a b) : Rearranges n a b := by
  obtain ⟨σ, fixed, same, _⟩ := first
  exact ⟨σ, fixed, same⟩

variable (key) [LinearOrder κ]

theorem exchange_rearranges (a : Nat → α) {j : Nat} (below : j < n) :
    StablyRearranges key n a (exchange key a j) := by
  unfold exchange
  split
  · rename_i wrong
    have moved : ∀ k, (if k = j - 1 then a j else if k = j then a (j - 1) else a k) =
        a (Equiv.swap (j - 1) j k) := by
      intro k
      rw [Equiv.swap_apply_def, apply_ite a, apply_ite a]
    simp only [moved]
    refine ⟨Equiv.swap (j - 1) j, fun k out => ?_, fun _ => rfl, fun x y less equal => ?_⟩
    · exact Equiv.swap_apply_of_ne_of_ne (by omega) (by omega)
    -- only the two exchanged elements change their order, and their keys differ
    have other : ¬ (x = j - 1 ∧ y = j) := by
      rintro ⟨rfl, rfl⟩
      simp only [Equiv.swap_apply_left, Equiv.swap_apply_right] at equal
      exact wrong.ne equal
    simp only [Equiv.swap_apply_def]
    split_ifs <;> omega
  · exact .refl n a

theorem sink_rearranges (j : Nat) : ∀ (a : Nat → α) {n : Nat}, j < n →
    StablyRearranges key n a (sink key a j) := by
  induction j with
  | zero => exact fun a n _ => .refl n a
  | succ j ih =>
    intro a n below
    have first := exchange_rearranges key a below
    exact first.trans (ih (exchange key a (j + 1)) (by omega))

theorem sortUpTo_rearranges (a : Nat → α) (n : Nat) :
    StablyRearranges key n a (sortUpTo key a n) := by
  induction n with
  | zero => exact .refl 0 a
  | succ n ih =>
    have pre := ih.mono (Nat.le_succ n)
    exact pre.trans (sink_rearranges key n _ (Nat.lt_succ_self n))

/-- The sorted part of the array is a permutation of what it was. -/
theorem sortUpTo_perm (a : Nat → α) (n : Nat) :
    ((List.range n).map (sortUpTo key a n)).Perm ((List.range n).map a) :=
  (sortUpTo_rearranges key a n).rearranges.perm

/-! ### Order -/

/-- The elements up to `i` are in order, apart from the one at `j`, which may be
smaller than those before it. -/
def SortedBut (a : Nat → α) (i j : Nat) : Prop :=
  ∀ x y, x < y → y ≤ i → y ≠ j → key (a x) ≤ key (a y)

variable {key}

theorem SortedBut.exchange {i j : Nat} (sorted : SortedBut key a i (j + 1))
    (lt : j + 1 ≤ i) : SortedBut key (exchange key a (j + 1)) i j := by
  intro x y less upTo other
  unfold AdjacentSort.exchange
  rw [Nat.add_sub_cancel]
  split
  · rename_i wrong
    -- The smaller element moves from `j + 1` to `j`.
    by_cases moved : y = j + 1
    · subst moved
      by_cases neighbour : x = j
      · subst neighbour
        simp only [if_true, Nat.succ_ne_self, if_false]
        exact wrong.le
      · have pre := sorted x j (by omega) (by omega) (by omega)
        simpa only [if_neg neighbour, if_neg (show ¬ x = j + 1 by omega), Nat.succ_ne_self,
          if_false, if_true] using pre
    dsimp only
    rw [if_neg other, if_neg moved]
    by_cases first : x = j
    · rw [if_pos first]
      exact sorted (j + 1) y (by omega) upTo moved
    rw [if_neg first]
    by_cases second : x = j + 1
    · rw [if_pos second]
      exact sorted j y (by omega) upTo moved
    · rw [if_neg second]
      exact sorted x y less upTo moved
  rename_i right
  rw [not_lt] at right
  by_cases last : y = j + 1
  · subst last
    by_cases neighbour : x = j
    · rw [neighbour]
      exact right
    · exact (sorted x j (by omega) (by omega) (by omega)).trans right
  · exact sorted x y less upTo last

theorem SortedBut.sink {i : Nat} (j : Nat) : ∀ {a : Nat → α}, SortedBut key a i j → j ≤ i →
    SortedBut key (sink key a j) i 0 := by
  induction j with
  | zero => exact fun sorted _ => sorted
  | succ j ih =>
    intro a sorted lt
    exact ih (sorted.exchange lt) (by omega)

variable (key)

/-- After the rounds the elements below `n` are in order. -/
theorem sortUpTo_sorted (a : Nat → α) (n : Nat) :
    ∀ x y, x < y → y < n → key (sortUpTo key a n x) ≤ key (sortUpTo key a n y) := by
  induction n with
  | zero => exact fun _ _ _ absurd => (Nat.not_lt_zero _ absurd).elim
  | succ n ih =>
    have pre : SortedBut key (sortUpTo key a n) n n := fun x y less upTo other =>
      ih x y less (by omega)
    have after := pre.sink n le_rfl
    exact fun x y less below => after x y less (by omega) (by omega)

/-! ### Dependence on the elements -/

/-- The part of an array up to `m` is sorted in the same way whatever comes after it. -/
theorem sortUpTo_congr {m : Nat} (same : ∀ k, k < m → a k = b k) (n : Nat)
    (lt : n ≤ m) : ∀ k, k < m → sortUpTo key a n k = sortUpTo key b n k := by
  have exchanged : ∀ {a b : Nat → α} {j : Nat}, j < m → (∀ k, k < m → a k = b k) →
      ∀ k, k < m → exchange key a j k = exchange key b j k := by
    intro a b j below same k inRange
    unfold exchange
    rw [same j below, same (j - 1) (by omega)]
    split
    · dsimp only
      rw [same k inRange]
    · exact same k inRange
  have sunk : ∀ (j : Nat) {a b : Nat → α}, j < m → (∀ k, k < m → a k = b k) →
      ∀ k, k < m → sink key a j k = sink key b j k := by
    intro j
    induction j with
    | zero => exact fun _ same => same
    | succ j ih =>
      intro a b below same
      exact ih (by omega) (exchanged below same)
  induction n with
  | zero => exact same
  | succ n ih => exact sunk n (by omega) (ih (by omega))

end AdjacentSort

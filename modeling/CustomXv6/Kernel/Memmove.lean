/-
Module: CustomXv6.Kernel.Memmove
Purpose: The two versions of memmove copy whatever the overlap of the ranges.
Trusted boundary: none
Main exports: Memmove.memmove, Memmove.memmove_moves
-/
import Mathlib.Algebra.Group.Nat.Defs
import Mathlib.Data.List.Nodup

namespace CustomXv6

namespace Memmove

open Function

/-! ### Copying along a list of moves -/

section Moves

variable {α β : Type*} [DecidableEq α]

/-- Each move copies the value at its second address to its first. -/
def copyAlong (m : α → β) (moves : List (α × α)) : α → β :=
  moves.foldl (fun m move => update m move.1 (m move.2)) m

/-- If no address is read or written after it has been written, every move copies the first
value. -/
theorem copyAlong_spec {moves : List (α × α)}
    (ordered : moves.Pairwise fun x y => y.2 ≠ x.1 ∧ y.1 ≠ x.1) (m : α → β) :
    (∀ move ∈ moves, copyAlong m moves move.1 = m move.2) ∧
      ∀ a, (∀ move ∈ moves, a ≠ move.1) → copyAlong m moves a = m a := by
  induction moves generalizing m with
  | nil => exact ⟨List.forall_mem_nil _, fun _ _ => rfl⟩
  | cons first _ ih =>
    rw [List.pairwise_cons] at ordered
    obtain ⟨copied, kept⟩ := ih ordered.2 (update m first.1 (m first.2))
    refine ⟨fun move mem => ?_, fun a out => ?_⟩
    · obtain rfl | later := List.mem_cons.mp mem
      · exact (kept move.1 fun y inRest => (ordered.1 y inRest).2.symm).trans (update_self ..)
      · exact (copied move later).trans (update_of_ne (ordered.1 move later).1 ..)
    · rw [List.forall_mem_cons] at out
      exact (kept a out.2).trans (update_of_ne out.1 ..)

end Moves

/-! ### The source -/

abbrev Memory := UInt64 → UInt8

/-- `while(n-- > 0) *d++ = *s++;`. -/
def copyUp : Nat → (d s : UInt64) → Memory → Memory
  | 0, _, _, m => m
  | n + 1, d, s, m => copyUp n (d + 1) (s + 1) (update m d (m s))

/-- `while(n-- > 0) *--d = *--s;`. -/
def copyDown : Nat → (d s : UInt64) → Memory → Memory
  | 0, _, _, m => m
  | n + 1, d, s, m => copyDown n (d - 1) (s - 1) (update m (d - 1) (m (s - 1)))

/-- `memmove` of the kernel. -/
def memmove (dst src : UInt64) (n : UInt32) (m : Memory) : Memory :=
  if n = 0 then m
  else if src < dst ∧ src + n.toUInt64 > dst then
    copyDown n.toNat (dst + n.toUInt64) (src + n.toUInt64) m
  else copyUp n.toNat dst src m

/-- `memmove` of the user library. -/
def Ulib.memmove (dst src : UInt64) (n : Int32) (m : Memory) : Memory :=
  if src > dst then copyUp n.toInt.toNat dst src m
  else copyDown n.toInt.toNat (dst + UInt64.ofInt n.toInt) (src + UInt64.ofInt n.toInt) m

/-! ### Both loops -/

/-- `m'` has the `n` bytes at `src` of `m` at `dst`, and all others are those of `m`. -/
def Moved (n : Nat) (dst src : UInt64) (m m' : Memory) : Prop :=
  (∀ i < n, m' (dst + UInt64.ofNat i) = m (src + UInt64.ofNat i)) ∧
    ∀ a, (∀ i < n, a ≠ dst + UInt64.ofNat i) → m' a = m a

def move (dst src : UInt64) (i : Nat) : UInt64 × UInt64 :=
  (dst + UInt64.ofNat i, src + UInt64.ofNat i)

theorem copyUp_eq (n : Nat) (d s : UInt64) (m : Memory) :
    copyUp n d s m = copyAlong m ((List.range n).map (move d s)) := by
  have shift : ∀ (p : UInt64) i, p + UInt64.ofNat (i + 1) = p + 1 + UInt64.ofNat i := by
    intro p i
    rw [UInt64.ofNat_add, UInt64.add_assoc, UInt64.add_comm 1]
    rfl
  induction n generalizing d s m with
  | zero => rfl
  | succ n ih =>
    have tail : move d s ∘ Nat.succ = move (d + 1) (s + 1) := by
      funext i
      rw [Function.comp_apply, move, shift, shift, move]
    rw [List.range_succ_eq_map, List.map_cons, List.map_map, tail]
    have start : move d s 0 = (d, s) := by simp [move]
    rw [start]
    exact ih (d + 1) (s + 1) _

theorem copyDown_eq (n : Nat) (d s : UInt64) (m : Memory) :
    copyDown n (d + UInt64.ofNat n) (s + UInt64.ofNat n) m =
      copyAlong m ((List.range n).reverse.map (move d s)) := by
  have back : ∀ (p : UInt64) i, p + UInt64.ofNat (i + 1) - 1 = p + UInt64.ofNat i := by
    intro p i
    rw [UInt64.ofNat_add, ← UInt64.add_assoc]
    exact UInt64.add_sub_cancel ..
  induction n generalizing m with
  | zero => rfl
  | succ n ih =>
    rw [List.range_succ, List.reverse_append, copyDown, back, back, ih]
    rfl

section Overlap

variable {n : Nat} {dst src : UInt64}

theorem toNat_add_ofNat (p : UInt64) {i : Nat} (lt : p.toNat + i < 2 ^ 64) :
    (p + UInt64.ofNat i).toNat = p.toNat + i := by
  rw [UInt64.toNat_add, UInt64.toNat_ofNat']
  omega

/-- A list of all positions moves the range, if no byte is read after it was overwritten. -/
theorem Moved.of_positions {positions : List Nat} (all : ∀ i, i ∈ positions ↔ i < n)
    (distinct : positions.Nodup) (dstFits : dst.toNat + n ≤ 2 ^ 64)
    (unread : positions.Pairwise fun i j => src.toNat + j ≠ dst.toNat + i)
    (srcFits : src.toNat + n ≤ 2 ^ 64) (m : Memory) :
    Moved n dst src m (copyAlong m (positions.map (move dst src))) := by
  have ordered : (positions.map (move dst src)).Pairwise fun x y => y.2 ≠ x.1 ∧ y.1 ≠ x.1 := by
    rw [List.pairwise_map]
    refine (unread.and distinct).imp_of_mem fun {i j} left right apart => ?_
    rw [all] at left right
    have target := toNat_add_ofNat dst (i := i) (by omega)
    constructor
    · intro equal
      have target := (congrArg UInt64.toNat equal).trans target
      exact apart.1 ((toNat_add_ofNat src (by omega)).symm.trans target)
    · intro equal
      have target := (congrArg UInt64.toNat equal).trans target
      have same := (toNat_add_ofNat dst (i := j) (by omega)).symm.trans target
      omega
  obtain ⟨copied, kept⟩ := copyAlong_spec ordered m
  refine ⟨fun i below => ?_, fun a out => kept a fun x mem => ?_⟩
  · exact copied (move dst src i) (List.mem_map_of_mem ((all i).mpr below))
  · obtain ⟨i, position, rfl⟩ := List.mem_map.mp mem
    exact out i ((all i).mp position)

theorem Moved.up (dstFits : dst.toNat + n ≤ 2 ^ 64) (srcFits : src.toNat + n ≤ 2 ^ 64)
    (apart : dst.toNat ≤ src.toNat ∨ src.toNat + n ≤ dst.toNat) (m : Memory) :
    Moved n dst src m (copyUp n dst src m) := by
  rw [copyUp_eq]
  refine .of_positions (fun _ => List.mem_range) List.nodup_range dstFits ?_ srcFits m
  refine List.pairwise_lt_range.imp_of_mem fun {i j} _ inRange less => ?_
  rw [List.mem_range] at inRange
  omega

theorem Moved.down (dstFits : dst.toNat + n ≤ 2 ^ 64) (srcFits : src.toNat + n ≤ 2 ^ 64)
    (apart : src.toNat ≤ dst.toNat) (m : Memory) :
    Moved n dst src m (copyDown n (dst + UInt64.ofNat n) (src + UInt64.ofNat n) m) := by
  rw [copyDown_eq]
  refine .of_positions (fun _ => List.mem_reverse.trans List.mem_range)
    (List.nodup_reverse.mpr List.nodup_range) dstFits ?_ srcFits m
  rw [List.pairwise_reverse]
  refine List.pairwise_lt_range.imp fun {i j} less => ?_
  omega

end Overlap

/-- Both versions move the bytes whatever the overlap of the two ranges. -/
theorem memmove_moves (m : Memory) (dst src : UInt64) :
    (∀ n : UInt32, dst.toNat + n.toNat ≤ 2 ^ 64 → src.toNat + n.toNat ≤ 2 ^ 64 →
      Moved n.toNat dst src m (memmove dst src n m)) ∧
    ∀ n : Int32, 0 ≤ n.toInt → dst.toNat + n.toInt.toNat ≤ 2 ^ 64 →
      src.toNat + n.toInt.toNat ≤ 2 ^ 64 →
      Moved n.toInt.toNat dst src m (Ulib.memmove dst src n m) := by
  refine ⟨fun n dstFits srcFits => ?_, fun n nonneg dstFits srcFits => ?_⟩
  · unfold memmove
    split
    · rename_i zero
      rw [zero]
      exact ⟨fun i below => absurd below (Nat.not_lt_zero i), fun _ _ => rfl⟩
    rw [← UInt64.ofNat_uInt32ToNat]
    split
    · rename_i _ overlap
      exact .down dstFits srcFits (Nat.le_of_lt (UInt64.lt_iff_toNat_lt.mp overlap.1)) m
    rename_i _ disjoint
    refine .up dstFits srcFits ?_ m
    by_contra overlap
    -- the end of the source does not wrap: the destination begins above the source
    have ends := toNat_add_ofNat src (i := n.toNat) (by omega)
    apply disjoint
    rw [UInt64.lt_iff_toNat_lt, gt_iff_lt, UInt64.lt_iff_toNat_lt, ends]
    omega
  have extended : UInt64.ofInt n.toInt = UInt64.ofNat n.toInt.toNat := by
    obtain ⟨k, value⟩ := Int.eq_ofNat_of_zero_le nonneg
    rw [value, Int.toNat_natCast]
    exact UInt64.intCast_ofNat k
  unfold Ulib.memmove
  rw [extended]
  split
  · rename_i above
    exact .up dstFits srcFits (.inl (Nat.le_of_lt (UInt64.lt_iff_toNat_lt.mp above))) m
  rename_i below
  rw [gt_iff_lt, UInt64.lt_iff_toNat_lt, Nat.not_lt] at below
  exact .down dstFits srcFits below m

/-- Moves of three bytes by one address, in both directions. -/
theorem memmove_moves_three :
    memmove 1001 1000 3 UInt64.toUInt8 1003 = 234 ∧
      Ulib.memmove 1000 1001 3 UInt64.toUInt8 1000 = 233 :=
  ⟨((memmove_moves UInt64.toUInt8 1001 1000).1 3 (by decide) (by decide)).1 2 (by decide),
    ((memmove_moves UInt64.toUInt8 1000 1001).2 3 (by decide) (by decide) (by decide)).1 0
      (by decide)⟩

end Memmove

end CustomXv6

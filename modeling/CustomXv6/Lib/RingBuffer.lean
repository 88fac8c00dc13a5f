/-
Module: CustomXv6.Lib.RingBuffer
Purpose: The list held by a circular array, and the history held by one that is overwritten.
Trusted boundary: none
Main exports: view, stretch, OverwritingRing.Recent
-/
import Mathlib.Data.List.Range
import Mathlib.Data.Nat.ModEq
import Mathlib.Data.List.Perm.Lattice
import Mathlib.Data.List.Perm.Subperm

namespace RingBuffer

open Function

variable {α : Type*}

/-- The `size` elements of a circular array of `capacity` slots, from `front`
on. -/
def view (slots : Nat → α) (cap front size : Nat) : List α :=
  (List.range size).map fun k => slots ((front + k) % cap)

@[simp] theorem view_length (slots : Nat → α) (cap front size : Nat) :
    (view slots cap front size).length = size := by
  simp [view]

/-- Distinct offsets below the capacity are distinct slots. -/
theorem slot_injective {cap front j k : Nat} (jBound : j < cap) (kBound : k < cap)
    (same : (front + j) % cap = (front + k) % cap) : j = k := by
  have congruent : j ≡ k [MOD cap] := Nat.ModEq.add_left_cancel' front same
  rwa [Nat.ModEq, Nat.mod_eq_of_lt jBound, Nat.mod_eq_of_lt kBound] at congruent

section

variable (slots : Nat → α)
include slots

/-- One element more. -/
theorem view_succ (cap front size : Nat) :
    view slots cap front (size + 1) =
      view slots cap front size ++ [slots ((front + size) % cap)] := by
  rw [view, List.range_succ, List.map_append, List.map_singleton, view]

/-- Writing the slot behind the last element leaves the list alone, as long as there is a
slot to spare. -/
theorem view_update {cap front size : Nat} (room : size < cap) (x : α) :
    view (update slots ((front + size) % cap) x) cap front size =
      view slots cap front size := by
  apply List.map_congr_left
  intro k mem
  have kBound : k < size := List.mem_range.mp mem
  apply update_of_ne
  intro same
  have equal := slot_injective (by omega) room same
  omega

/-- Writing the slot behind the last element and counting it appends to the list. -/
theorem view_write {cap front size : Nat} (room : size < cap) (x : α) :
    view (update slots ((front + size) % cap) x) cap front (size + 1) =
      view slots cap front size ++ [x] := by
  rw [view_succ, view_update slots room, update_self]

/-- Advancing the front drops the first element. -/
theorem view_advance (cap front size : Nat) :
    view slots cap front (size + 1) =
      slots (front % cap) :: view slots cap ((front + 1) % cap) size := by
  rw [view, List.range_succ_eq_map, List.map_cons, List.map_map]
  congr 1
  apply List.map_congr_left
  intro k _
  simp only [comp_apply, Nat.succ_eq_add_one, Nat.mod_add_mod]
  congr 2
  omega

/-- The list without its last element is what lies before it. -/
theorem view_dropLast (cap front size : Nat) :
    (view slots cap front (size + 1)).dropLast = view slots cap front size := by
  rw [view, List.range_succ, List.map_append, List.map_singleton, List.dropLast_concat, view]

/-- The last element. -/
theorem view_getLast? (cap front size : Nat) :
    (view slots cap front (size + 1)).getLast? = some (slots ((front + size) % cap)) := by
  rw [view, List.range_succ, List.map_append, List.map_singleton, List.getLast?_concat]

/-! ### Free-running counters

The front and the end are often kept as two machine words that are only ever
counted up and reduced modulo the capacity when a slot is accessed.  They may
wrap around as long as the capacity divides the number of words. -/

end

section Wrapping

variable {slots : Nat → α} {cap m first last : Nat}

/-- The elements between two counters that wrap around at `m`. -/
def stretch (slots : Nat → α) (cap m first last : Nat) : List α :=
  view slots cap first ((m - first + last) % m)

@[simp] theorem stretch_length :
    (stretch slots cap m first last).length = (m - first + last) % m :=
  view_length _ _ _ _

variable (divides : cap ∣ m)
include divides

/-- The slot of the end counter is the one behind the elements. -/
theorem stretch_slot (firstBound : first < m) :
    (first + (m - first + last) % m) % cap = last % cap := by
  have sum : first + (m - first + last) % m ≡ last [MOD m] := by
    rw [Nat.ModEq, Nat.add_mod_mod]
    have whole : first + (m - first + last) = m + last := by omega
    rw [whole, Nat.add_mod_left]
  exact sum.of_dvd divides

/-- Storing an element at the end counter leaves the elements alone. -/
theorem stretch_update (firstBound : first < m)
    (room : (stretch slots cap m first last).length < cap) (x : α) :
    stretch (update slots (last % cap) x) cap m first last =
      stretch slots cap m first last := by
  rw [stretch_length] at room
  rw [stretch, ← stretch_slot divides firstBound, view_update slots room, stretch]

/-- Counting the end up appends the element that is stored there. -/
theorem stretch_succ (notAll : cap < m) (firstBound : first < m)
    (room : (stretch slots cap m first last).length < cap) :
    stretch slots cap m first ((last + 1) % m) =
      stretch slots cap m first last ++ [slots (last % cap)] := by
  rw [stretch_length] at room
  have longer : (m - first + (last + 1) % m) % m = (m - first + last) % m + 1 := by
    rw [Nat.add_mod_mod, ← Nat.add_assoc, Nat.add_mod, Nat.mod_eq_of_lt (show 1 < m by omega),
      Nat.mod_eq_of_lt (show (m - first + last) % m + 1 < m by omega)]
  rw [stretch, longer, view_succ, stretch_slot divides firstBound, stretch]

/-- Storing an element at the end counter and counting it up appends. -/
theorem stretch_write (notAll : cap < m) (firstBound : first < m)
    (room : (stretch slots cap m first last).length < cap) (x : α) :
    stretch (update slots (last % cap) x) cap m first ((last + 1) % m) =
      stretch slots cap m first last ++ [x] := by
  have same := stretch_update divides firstBound room x
  rw [stretch_succ divides notAll firstBound (by rw [same]; exact room), same, update_self]

/-- Counting the front up removes the first element. -/
theorem stretch_advance (firstBound : first < m) (lastBound : last < m) (ne : first ≠ last) :
    stretch slots cap m first last =
      slots (first % cap) :: stretch slots cap m ((first + 1) % m) last := by
  have shorter : (m - first + last) % m = (m - (first + 1) % m + last) % m + 1 := by
    by_cases wraps : first + 1 = m
    · have zero : (first + 1) % m = 0 := by rw [wraps, Nat.mod_self]
      have one : m - first = 1 := by omega
      rw [zero, Nat.sub_zero, Nat.add_mod_left, Nat.mod_eq_of_lt lastBound, one,
        Nat.mod_eq_of_lt (show 1 + last < m by omega), Nat.add_comm]
    rw [Nat.mod_eq_of_lt (show first + 1 < m by omega)]
    by_cases pre : first < last
    · have sum : m - first + last = m + (last - first) := by omega
      have sum' : m - (first + 1) + last = m + (last - (first + 1)) := by omega
      rw [sum, sum', Nat.add_mod_left, Nat.add_mod_left,
        Nat.mod_eq_of_lt (show last - first < m by omega),
        Nat.mod_eq_of_lt (show last - (first + 1) < m by omega)]
      omega
    · rw [Nat.mod_eq_of_lt (show m - first + last < m by omega),
        Nat.mod_eq_of_lt (show m - (first + 1) + last < m by omega)]
      omega
  rw [stretch, shorter, view_advance, stretch, view, view]
  congr 1
  apply List.map_congr_left
  intro k _
  -- The two fronts differ by the wrap-around, a multiple of the capacity.
  rw [Nat.mod_add_mod, ← Nat.mod_add_mod ((first + 1) % m), Nat.mod_mod_of_dvd _ divides,
    Nat.mod_add_mod]

end Wrapping

/-- The elements between two counters. -/
def between (slots : Nat → α) (cap : Nat) (first last : UInt32) : List α :=
  view slots cap first.toNat (last - first).toNat

@[simp] theorem between_length (slots : Nat → α) (cap : Nat) (first last : UInt32) :
    (between slots cap first last).length = (last - first).toNat := view_length _ _ _ _

@[simp] theorem between_self (slots : Nat → α) (cap : Nat) (counter : UInt32) :
    between slots cap counter counter = [] := by
  rw [between, UInt32.sub_self]
  rfl

/-- The distance of two counters, as a number. -/
theorem distance_eq (first last : UInt32) :
    (last - first).toNat = (2 ^ 32 - first.toNat + last.toNat) % 2 ^ 32 :=
  UInt32.toNat_sub last first

theorem between_eq_nil {slots : Nat → α} {cap : Nat} {first last : UInt32} :
    between slots cap first last = [] ↔ first = last := by
  rw [← List.length_eq_zero_iff, between_length, distance_eq, ← UInt32.toNat_inj]
  have firstBound := first.toNat_lt
  have lastBound := last.toNat_lt
  omega

section Counters

variable {slots : Nat → α} {cap : Nat} {first last : UInt32}

/-- Counting the end up makes the distance one larger, unless it wraps around. -/
theorem distance_succ (room : (last - first).toNat < 2 ^ 32 - 1) :
    (last + 1 - first).toNat = (last - first).toNat + 1 := by
  have one : (last + 1).toNat = (last.toNat + 1) % 2 ^ 32 := UInt32.toNat_add last 1
  rw [distance_eq] at room ⊢
  rw [one, distance_eq]
  omega

/-- Counting the end down makes the distance one smaller. -/
theorem distance_pred (ne : first ≠ last) :
    (last - first).toNat = (last - 1 - first).toNat + 1 := by
  have one : (last - 1).toNat = (2 ^ 32 - 1 + last.toNat) % 2 ^ 32 := UInt32.toNat_sub last 1
  have firstBound := first.toNat_lt
  have lastBound := last.toNat_lt
  rw [Ne, ← UInt32.toNat_inj] at ne
  rw [distance_eq, distance_eq, one]
  omega

/-- Counting the front up makes the distance one smaller. -/
theorem distance_advance (ne : first ≠ last) :
    (last - first).toNat = (last - (first + 1)).toNat + 1 := by
  have one : (first + 1).toNat = (first.toNat + 1) % 2 ^ 32 := UInt32.toNat_add first 1
  have firstBound := first.toNat_lt
  have lastBound := last.toNat_lt
  rw [Ne, ← UInt32.toNat_inj] at ne
  rw [distance_eq, distance_eq, one]
  omega

/-- The slot of the end counter is the one behind the elements. -/
theorem last_slot (divides : cap ∣ 2 ^ 32) (first last : UInt32) :
    (first.toNat + (last - first).toNat) % cap = last.toNat % cap := by
  exact stretch_slot divides first.toNat_lt

/-- Storing an element at the end counter and counting it up appends. -/
theorem between_write (divides : cap ∣ 2 ^ 32) (notAll : cap < 2 ^ 32)
    (room : (last - first).toNat < cap) (x : α) :
    between (update slots (last.toNat % cap) x) cap first (last + 1) =
      between slots cap first last ++ [x] := by
  apply stretch_write divides notAll first.toNat_lt
  rwa [stretch_length, ← distance_eq]

/-- Counting the front up removes the first element. -/
theorem between_advance (divides : cap ∣ 2 ^ 32) (ne : first ≠ last) :
    between slots cap first last =
      slots (first.toNat % cap) :: between slots cap (first + 1) last := by
  apply stretch_advance divides first.toNat_lt last.toNat_lt
  exact fun same => ne (UInt32.toNat_inj.mp same)

/-- Counting the end down removes the last element. -/
theorem between_retract (ne : first ≠ last) :
    between slots cap first (last - 1) = (between slots cap first last).dropLast := by
  rw [between, between, distance_pred ne, view_dropLast]

/-- The last element stands before the end counter. -/
theorem between_getLast? (divides : cap ∣ 2 ^ 32) (ne : first ≠ last) :
    (between slots cap first last).getLast? =
      some (slots ((last - 1).toNat % cap)) := by
  rw [between, distance_pred ne, view_getLast?, last_slot divides]

variable {middle : UInt32}

/-- Two stretches that do not wrap around together add up. -/
theorem distance_add (fits : (middle - first).toNat + (last - middle).toNat < 2 ^ 32) :
    (last - first).toNat = (middle - first).toNat + (last - middle).toNat := by
  have middleBound := middle.toNat_lt
  rw [distance_eq, distance_eq] at fits
  rw [distance_eq, distance_eq, distance_eq]
  omega

/-- The elements of both stretches, one after the other. -/
theorem between_append (divides : cap ∣ 2 ^ 32)
    (fits : (middle - first).toNat + (last - middle).toNat < 2 ^ 32) :
    between slots cap first middle ++ between slots cap middle last =
      between slots cap first last := by
  rw [between, between, between, distance_add fits, view, view, view, List.range_add,
    List.map_append, List.map_map]
  congr 1
  apply List.map_congr_left
  intro k _
  rw [comp_apply, ← Nat.add_assoc, ← Nat.mod_add_mod (first.toNat + _) cap k,
    last_slot divides, Nat.mod_add_mod]

end Counters

end RingBuffer

namespace OverwritingRing

open Function

variable {α : Type*}

/-- The entries of the history that are not older than the size `c` of the ring are
in their slots: the entry number `j` is in slot `j % c`. -/
def Recent (c : Nat) (slots : Nat → α) (hist : List α) : Prop :=
  ∀ (j : Nat) (here : j < hist.length), hist.length ≤ j + c → slots (j % c) = hist[j]

theorem Recent.nil (c : Nat) (slots : Nat → α) : Recent c slots [] :=
  fun j here => (Nat.not_lt_zero j here).elim

variable {hist : List α} {slots : Nat → α}

/-- A new entry goes into the next slot. -/
theorem Recent.push {c : Nat} (recent : Recent c slots hist) (x : α) :
    Recent c (update slots (hist.length % c) x) (hist ++ [x]) := by
  intro j here young
  rw [List.length_append, List.length_singleton] at here young
  by_cases last : j = hist.length
  · subst last
    rw [update_self, List.getElem_concat_length rfl]
  -- Two entries less than `c` apart are in different slots.
  have earlier : j < hist.length := by omega
  have apart : j % c ≠ hist.length % c := by
    intro same
    have divides := (Nat.modEq_iff_dvd' earlier.le).mp same
    have far := Nat.le_of_dvd (by omega) divides
    omega
  rw [update_of_ne apart, List.getElem_append_left earlier]
  exact recent j earlier (by omega)

/-- The slots of the last entries are the first ones of the ring, in some order. -/
theorem slots_perm (c n : Nat) :
    ((List.range' (n - c) (min n c)).map (· % c)).Perm (List.range (min n c)) := by
  rcases Nat.lt_or_ge n c with short | long
  · -- Nothing has been overwritten yet.
    have small : ∀ j ∈ List.range' (n - c) (min n c), j % c = j := by
      intro j mem
      rw [List.mem_range'_1] at mem
      exact Nat.mod_eq_of_lt (by omega)
    rw [List.map_congr_left small, List.map_id', Nat.min_eq_left short.le,
      Nat.sub_eq_zero_of_le short.le, ← List.range_eq_range']
  rw [Nat.min_eq_right long]
  have distinct : ((List.range' (n - c) c).map (· % c)).Nodup := by
    apply List.Nodup.map_on _ List.nodup_range'
    intro i memberI j memberJ same
    rw [List.mem_range'_1] at memberI memberJ
    by_contra ne
    rcases Nat.lt_or_gt_of_ne ne with less | more
    · have divides := (Nat.modEq_iff_dvd' less.le).mp same
      have far := Nat.le_of_dvd (by omega) divides
      omega
    · have divides := (Nat.modEq_iff_dvd' more.le).mp same.symm
      have far := Nat.le_of_dvd (by omega) divides
      omega
  apply (distinct.subperm _).perm_of_length_le
  · rw [List.length_map, List.length_range', List.length_range]
  intro k mem
  rw [List.mem_map] at mem
  obtain ⟨j, memberJ, rfl⟩ := mem
  rw [List.mem_range'_1] at memberJ
  rw [List.mem_range]
  exact Nat.mod_lt j (by omega)

/-- The used slots hold the last entries of the history. -/
theorem Recent.perm {c : Nat} (recent : Recent c slots hist) :
    ((List.range (min hist.length c)).map slots).Perm
      (hist.drop (hist.length - c)) := by
  have entries : hist.drop (hist.length - c) =
      ((List.range' (hist.length - c) (min hist.length c)).map (· % c)).map slots := by
    apply List.ext_getElem
    · rw [List.length_drop, List.length_map, List.length_map, List.length_range']
      omega
    intro k inDrop _
    rw [List.length_drop] at inDrop
    rw [List.getElem_drop, List.getElem_map, List.getElem_map, List.getElem_range']
    rw [Nat.one_mul]
    exact (recent _ (by omega) (by omega)).symm
  rw [entries]
  exact ((slots_perm c hist.length).map slots).symm

end OverwritingRing

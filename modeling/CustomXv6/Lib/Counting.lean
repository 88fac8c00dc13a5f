/-
Module: CustomXv6.Lib.Counting
Purpose: How often a value occurs in a finite family; resources that each stand at one place.
Trusted boundary: none
Main exports: Counting.occurrences, occurrences_update, Ownership.Exact
-/
import Mathlib.Algebra.BigOperators.Ring.Finset

namespace Counting

open Function

variable {ι α : Type*} [Fintype ι] [DecidableEq α]

/-- The number of indices at which a family has the value `a`. -/
def occurrences (f : ι → α) (a : α) : Nat := (Finset.univ.filter fun i => f i = a).card

variable {a : α} {f : ι → α}

theorem occurrences_pos : 0 < occurrences f a ↔ ∃ i, f i = a := by
  rw [occurrences, Finset.card_pos]
  constructor
  · rintro ⟨i, mem⟩
    exact ⟨i, (Finset.mem_filter.mp mem).2⟩
  · rintro ⟨i, here⟩
    exact ⟨i, Finset.mem_filter.mpr ⟨Finset.mem_univ i, here⟩⟩

theorem occurrences_eq_zero : occurrences f a = 0 ↔ ∀ i, f i ≠ a := by
  rw [← Nat.le_zero, ← Nat.not_lt, occurrences_pos, not_exists]

theorem occurrences_le_one : occurrences f a ≤ 1 ↔ ∀ i j, f i = a → f j = a → i = j := by
  rw [occurrences, Finset.card_le_one]
  constructor
  · intro single i j atI atJ
    exact single i (by simpa using atI) j (by simpa using atJ)
  · intro single i memberI j memberJ
    exact single i j (by simpa using memberI) (by simpa using memberJ)

/-- Two families with the value at the same places. -/
theorem occurrences_congr {g : ι → α} (same : ∀ i, f i = a ↔ g i = a) :
    occurrences f a = occurrences g a := by
  rw [occurrences, occurrences]
  congr 1
  ext i
  simp [same i]

variable [DecidableEq ι]

/-- One entry changes: its old value occurs once less, the new one once more. -/
theorem occurrences_update (f : ι → α) (i : ι) (x a : α) :
    occurrences (update f i x) a + (if f i = a then 1 else 0) =
      occurrences f a + (if x = a then 1 else 0) := by
  have others : ∑ j ∈ Finset.univ.erase i, (if update f i x j = a then 1 else 0) =
      ∑ j ∈ Finset.univ.erase i, (if f j = a then 1 else 0) := by
    apply Finset.sum_congr rfl
    intro j mem
    rw [update_of_ne (Finset.ne_of_mem_erase mem)]
  have pre := Finset.add_sum_erase Finset.univ (fun j => if f j = a then 1 else 0)
    (Finset.mem_univ i)
  have after := Finset.add_sum_erase Finset.univ (fun j => if update f i x j = a then 1 else 0)
    (Finset.mem_univ i)
  rw [update_self] at after
  rw [occurrences, occurrences, Finset.card_filter, Finset.card_filter]
  omega

end Counting

namespace Ownership

variable {ι β : Type*}

/-- A resource is in use if and only if it stands at some place, and it stands
at no two. -/
structure Exact (used : β → Prop) (owner : ι → Option β) : Prop where
  used_iff : ∀ b, used b ↔ ∃ p, owner p = some b
  single : ∀ {p q b}, owner p = some b → owner q = some b → p = q

namespace Exact

variable {used used' : β → Prop} {owner owner' : ι → Option β}

/-- A used resource stands at exactly one place. -/
theorem unique (exact : Exact used owner) {b : β} (inUse : used b) : ∃! p, owner p = some b := by
  obtain ⟨p, here⟩ := (exact.used_iff b).mp inUse
  exact ⟨p, here, fun q there => exact.single there here⟩

/-- A resource that is not used is handed out to an empty place. -/
theorem claim [DecidableEq ι] (exact : Exact used owner) {p : ι} {b : β} (fresh : ¬ used b)
    (empty : owner p = none) (marked : ∀ c, used' c ↔ c = b ∨ used c)
    (placed : ∀ q, owner' q = if q = p then some b else owner q) : Exact used' owner' := by
  refine ⟨fun c => ?_, fun {q r c} atQ atR => ?_⟩
  · rw [marked]
    constructor
    · rintro (rfl | inUse)
      · exact ⟨p, by rw [placed, if_pos rfl]⟩
      obtain ⟨q, there⟩ := (exact.used_iff c).mp inUse
      refine ⟨q, ?_⟩
      rw [placed, if_neg]
      · exact there
      rintro rfl
      rw [empty] at there
      cases there
    rintro ⟨q, there⟩
    rw [placed] at there
    split at there
    · exact .inl (Option.some.inj there).symm
    · exact .inr ((exact.used_iff c).mpr ⟨q, there⟩)
  rw [placed] at atQ atR
  -- A place other than `p` held its resource before, so that one is not the new one.
  have old : ∀ {q : ι}, owner q = some b → False := fun {q} there =>
    fresh ((exact.used_iff b).mpr ⟨q, there⟩)
  split at atQ <;> split at atR
  · rename_i first second
    rw [first, second]
  · cases atQ
    exact (old atR).elim
  · cases atR
    exact (old atQ).elim
  · exact exact.single atQ atR

/-- The resources at some of the places are taken back. -/
theorem release (exact : Exact used owner) (gone : ι → Prop)
    (marked : ∀ c, used' c ↔ used c ∧ ∀ p, gone p → owner p ≠ some c)
    (cleared : ∀ p, gone p → owner' p = none)
    (kept : ∀ p, ¬ gone p → owner' p = owner p) : Exact used' owner' := by
  have pre : ∀ {p c}, owner' p = some c → ¬ gone p ∧ owner p = some c := by
    intro p c here
    by_cases taken : gone p
    · rw [cleared p taken] at here
      cases here
    · exact ⟨taken, kept p taken ▸ here⟩
  refine ⟨fun c => ?_, fun {p q c} atP atQ => ?_⟩
  · rw [marked]
    constructor
    · rintro ⟨inUse, left⟩
      obtain ⟨p, here⟩ := (exact.used_iff c).mp inUse
      exact ⟨p, by rw [kept p fun taken => left p taken here, here]⟩
    rintro ⟨p, here⟩
    obtain ⟨stays, here⟩ := pre here
    refine ⟨(exact.used_iff c).mpr ⟨p, here⟩, fun q taken there => stays ?_⟩
    rw [exact.single here there]
    exact taken
  · exact exact.single (pre atP).2 (pre atQ).2

end Exact

end Ownership

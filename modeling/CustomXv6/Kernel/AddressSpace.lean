/-
Module: CustomXv6.Kernel.AddressSpace
Purpose: The address space of a process as proc.c, vm.c and exec.c make, copy, write and free it.
Trusted boundary: human-reviewed spec
Main exports: uvmalloc_all_or_nothing, uvmcopy_independent, execPrepare, execImage_spec
-/
import CustomXv6.Kernel.UserMemory

namespace CustomXv6

open PageHeap RadixTree Hoare
open Function

/-! ### Leaves -/

section Leaves

variable {pte pa flags : UInt64}

theorem leaf_encode (pa : UInt64) (bits : flags.toNat < 1024) (valid : flags &&& pteV ≠ 0)
    (access : flags &&& (pteR ||| pteW ||| pteX) ≠ 0) : Leaf (pa2pte pa ||| flags) := by
  refine ⟨encode_valid pa bits valid, ?_⟩
  rw [and_flag (by decide), pteFlags_encode pa bits]
  exact access

/-- A leaf that user code can use. -/
def UserLeaf (pte : UInt64) : Prop := Leaf pte ∧ pte &&& pteU ≠ 0

theorem userLeaf_encode (pa : UInt64) (bits : flags.toNat < 1024) (valid : flags &&& pteV ≠ 0)
    (access : flags &&& (pteR ||| pteW ||| pteX) ≠ 0) (user : flags &&& pteU ≠ 0) :
    UserLeaf (pa2pte pa ||| flags) := by
  refine ⟨leaf_encode pa bits valid access, ?_⟩
  rw [and_flag (by decide), pteFlags_encode pa bits]
  exact user

theorem kernelLeaf_encode (pa : UInt64) (bits : flags.toNat < 1024) (valid : flags &&& pteV ≠ 0)
    (access : flags &&& (pteR ||| pteW ||| pteX) ≠ 0) (kernel : flags &&& pteU = 0) :
    KernelLeaf (pa2pte pa ||| flags) := by
  refine ⟨leaf_encode pa bits valid access, ?_⟩
  rw [and_flag (by decide), pteFlags_encode pa bits]
  exact kernel

theorem flags_bits (pte : UInt64) : (pteFlags pte ||| pteV).toNat < 1024 := by
  rw [UInt64.toNat_or, toNat_pteFlags]
  exact Nat.or_lt_two_pow (show _ < 2 ^ 10 from Nat.mod_lt _ (by decide)) (by decide)

theorem leaf_copy (mem : UInt64) (leaf : Leaf pte) :
    Leaf (pa2pte mem ||| pteFlags pte ||| pteV) := by
  rw [UInt64.or_assoc]
  apply leaf_encode mem (flags_bits pte)
  · exact or_and_ne_zero_right (by decide)
  apply or_and_ne_zero_left
  rw [← and_flag (by decide)]
  exact leaf.2

/-- Clearing the user bit leaves a leaf on the same page. -/
theorem leaf_clear (leaf : Leaf pte) : Leaf (pte &&& ~~~ pteU) := by
  constructor
  · rw [UInt64.and_assoc]
    exact leaf.1
  · rw [UInt64.and_assoc]
    exact leaf.2

theorem pte2pa_clear (pte : UInt64) : pte2pa (pte &&& ~~~ pteU) = pte2pa pte := by
  have high : (pte &&& ~~~ pteU).toNat / 1024 = pte.toNat / 1024 := by
    have bound := pte.toNat_lt
    change (pte.toNat &&& (2 ^ 64 - 17)) / 2 ^ 10 = pte.toNat / 2 ^ 10
    have mask : (2 ^ 64 - 17 : Nat) >>> 10 = 2 ^ 54 - 1 := by decide
    rw [← Nat.shiftRight_eq_div_pow, ← Nat.shiftRight_eq_div_pow, Nat.shiftRight_and_distrib, mask,
      Nat.and_two_pow_sub_one_eq_mod, Nat.shiftRight_eq_div_pow, Nat.mod_eq_of_lt (by omega)]
  rw [← UInt64.toNat_inj, toNat_pte2pa, toNat_pte2pa, high]

end Leaves

/-! ### Page tables of processes -/

variable {sz : UInt64} {L : Layout} {vm vm' : Vm} {pt oldsz newsz xperm old new : UInt64}
  {kernel : Nat → Prop} {n v k rounds : Nat}

/-- The address space of a process with `n` user pages. -/
abbrev Space (vm : Vm) (pt : UInt64) (n : Nat) : Prop := Shape vm pt Leaf KernelPage n

variable {good : UInt64 → Prop}

theorem Shape.mono {good' : UInt64 → Prop} {kernel' : Nat → Prop}
    (shape : Shape vm pt good kernel n) (weaker : ∀ pte, good pte → good' pte)
    (same : ∀ v, kernel' v ↔ kernel v) : Shape vm pt good' kernel' n :=
  ⟨shape.inner, fun v lt => weaker _ (shape.user v lt),
    fun v small above isKernel => shape.fixed v small above ((same v).mp isKernel),
    fun v small above notKernel => shape.blank v small above fun isKernel =>
      notKernel ((same v).mpr isKernel)⟩

theorem notKernelPage (low : v ≤ 32768) : ¬ KernelPage v := by
  rintro (high | _)
  · omega
  · omega

theorem trampoline_page : trampolineVa.toNat / 4096 = 2 ^ 26 - 1 := by decide

theorem trapframe_page : trapframeVa.toNat / 4096 = 2 ^ 26 - 2 := by decide

/-- `proc_pagetable`: a page table without user pages, or nothing. -/
theorem procPagetable_spec (leafOfGood : ∀ pte, good pte → Leaf pte) (trapframe : UInt64)
    (sep : L.Owns vm 0) :
    wp (procPagetable L trapframe)
      (fun made vm' => match made with
        | none => Moves 0 0 vm vm'
        | some pt => Moves 0 (owned vm' pt 0) vm vm' ∧
            Shape vm' pt good KernelPage 0) Never vm := by
  apply wp_seq uvmcreate_spec
  intro made vm1 new
  cases made with
  | none =>
    rw [new]
    exact Moves.refl
  | some pt =>
    have shape1 : Shape vm1 pt good (fun _ => False) 0 :=
      ⟨new.inner, fun v absurd => (Nat.not_lt_zero v absurd).elim,
        fun _ _ _ absurd => absurd.elim, fun v _ _ _ => new.entry v⟩
    have moves1 : Moves 0 (owned vm1 pt 0) vm vm1 := by
      rw [owned, freedPages, if_pos rfl, List.range'_zero, List.map_nil, tally_nil, zero_add]
      exact new.moves
    apply wp_seq (mapKernel_spec (moves1.separate sep) shape1 (by decide) (by decide)
      (Nat.zero_le _) id (by
        rw [UInt64.or_assoc]
        exact kernelLeaf_encode _ (by decide) (by decide) (by decide) (by decide)))
    rintro done _ ⟨moves2, shape2⟩
    have sofar := moves1.trans moves2
    cases done with
    | false =>
      have nothing : ∀ v, ¬ ((false = true ∧ v = trampolineVa.toNat / 4096) ∨ False) := by
        rintro v (absurd | absurd)
        · cases absurd.1
        · exact absurd
      apply wp_seq (uvmfree_spec leafOfGood nothing 0 (sofar.separate sep) shape2)
      intro _ vm3 freed
      exact sofar.trans freed
    | true =>
      apply wp_seq (mapKernel_spec (sofar.separate sep) shape2 (by decide) (by decide)
        (Nat.zero_le _) (by decide) (by
          rw [UInt64.or_assoc]
          exact kernelLeaf_encode _ (by decide) (by decide) (by decide) (by decide)))
      rintro done _ ⟨moves3, shape3⟩
      have sofar3 := sofar.trans moves3
      cases done with
      | true =>
        refine ⟨sofar3, shape3.mono (fun _ holds => holds) fun v => ?_⟩
        rw [KernelPage, trampoline_page, trapframe_page]
        tauto
      | false =>
        apply wp_seq (unmapKernel_spec (sofar3.separate sep) shape3 (by decide)
          (by decide) (Nat.zero_le _) (.inr (.inl ⟨rfl, rfl⟩)))
        rintro _ _ ⟨moves4, shape4⟩
        have sofar4 := sofar3.trans moves4
        apply wp_seq (uvmfree_spec leafOfGood _ 0 (sofar4.separate sep) shape4)
        · intro _ _ freed
          exact sofar4.trans freed
        rintro v ⟨notHere, absurd | here | absurd⟩
        · cases absurd.1
        · exact notHere here.2
        · exact absurd

/-- `proc_freepagetable` gives back everything the address space owns. -/
theorem procFreepagetable_spec (leafOfGood : ∀ pte, good pte → Leaf pte)
    (sep : L.Owns vm (owned vm pt (pagesOf sz)))
    (shape : Shape vm pt good KernelPage (pagesOf sz)) :
    wp (procFreepagetable L pt sz)
      (fun _ vm' => Moves (owned vm pt (pagesOf sz)) 0 vm vm') Never vm := by
  have bound : pagesOf sz ≤ 32768 := pages_bound sep
  apply wp_seq (unmapKernel_spec sep shape (by decide) (by decide)
    (by rw [trampoline_page]; omega) (.inl trampoline_page))
  rintro _ _ ⟨moves1, shape1⟩
  apply wp_seq (unmapKernel_spec (moves1.separate sep) shape1 (by decide) (by decide)
    (by rw [trapframe_page]; omega) ⟨by decide, .inr trapframe_page⟩)
  rintro _ _ ⟨moves2, shape2⟩
  have sofar := moves1.trans moves2
  apply wp_imp (uvmfree_spec leafOfGood _ sz (sofar.separate sep) shape2)
  · intro _ _ freed
    exact sofar.trans freed
  rintro v ⟨notTrapframe, notTrampoline, high | high⟩
  · exact notTrampoline (by rw [trampoline_page, high])
  · exact notTrapframe (by rw [trapframe_page, high])

/-! ### uvmcopy -/

/-- The page of a user entry is one of the user pages. -/
theorem mem_userPages {entries : Nat → UInt64} (lt : v < n) :
    pte2pa (entries v) ∈ freedPages entries true 0 n :=
  List.mem_map.mpr ⟨v, List.mem_range'_1.mpr ⟨Nat.zero_le v, by omega⟩, rfl⟩

/-- What `uvmcopy` does to the new table: its pages are copies of the old ones. -/
abbrev Copied (old new : UInt64) (vm : Vm) (k : Nat) (vm' : Vm) : Prop :=
  Extends new (fun v => pteFlags (vm.entry old v)) (fun v => vm.mem (pte2pa (vm.entry old v))) vm
    0 k 0 vm'

/-- The old address space is as it was. -/
theorem source_kept (copied : Copied old new vm k vm')
    (sep : L.Owns vm (owned vm new 0 + owned vm old n)) :
    (∀ v, vm'.entry old v = vm.entry old v) ∧
      ∀ v < n, vm'.mem (pte2pa (vm.entry old v)) = vm.mem (pte2pa (vm.entry old v)) := by
  have only : owned vm new 0 = tally (vm.tablePages new) := zero_add _
  rw [only] at sep
  constructor
  · rw [owned, ← add_assoc, add_right_comm] at sep
    exact (table_kept copied.moves sep.left).2
  · intro v lt
    apply copied.moves.kept sep
    exact Nat.add_pos_left (tally_pos.mpr (mem_userPages lt)) _

variable {i : UInt64}

section

variable (notKernel : ∀ v ≤ 32768, ¬ kernel v)
  (sep : L.Owns vm (owned vm new 0 + owned vm old (pagesOf sz)))
  (leaves : ∀ v < pagesOf sz, Leaf (vm.entry old v)) (newSpace : Shape vm new Leaf kernel 0)
include notKernel sep leaves newSpace

/-- The error path of `uvmcopy`. -/
theorem undoCopy_spec (copied : Copied old new vm k vm') (here : i.toNat = k * 4096)
    (needed : k ≤ pagesOf sz) :
    wp (do
        uvmunmap L new 0 (i / pgsize) true
        pure false)
      (fun done vm'' => Copied old new vm (if done then pagesOf sz else 0) vm'')
      Never vm' := by
  have bound : k ≤ 32768 := copied.bound sep.left (Nat.zero_le k)
  have count : (i / pgsize).toNat = k - 0 := by
    rw [UInt64.toNat_div, here]
    exact Nat.mul_div_cancel _ (by decide)
  apply wp_seq (copied.undo sep.left.right (Nat.zero_le k) bound
    (fun v low high => newSpace.blank v (by omega) low (notKernel v (by omega)))
    (fun v lt r => leaf_copy r (leaves v (by omega)))
    (show (0 : UInt64).toNat = 0 * 4096 from rfl) count)
  exact fun _ _ undone => undone

/-- The loop of `uvmcopy`, by induction on the rounds left; `k` pages are copied
when it looks at `i`. -/
theorem uvmcopyLoop_spec (copied : Copied old new vm k vm') (here : i.toNat = k * 4096)
    (enough : sz.toNat < i.toNat + rounds * 4096) (needed : k ≤ pagesOf sz) :
    wp (uvmcopyLoop L old new sz rounds i)
      (fun done vm'' => Copied old new vm (if done then pagesOf sz else 0) vm'')
      Never vm' := by
  induction rounds generalizing i k vm' with
  | zero =>
    have run : ¬ i < sz := by
      rw [UInt64.lt_iff_toNat_lt]
      omega
    obtain rfl : k = pagesOf sz := by
      rw [pagesOf] at needed ⊢
      omega
    rw [uvmcopyLoop, if_neg run]
    exact copied
  | succ rounds ih =>
    have bound : k ≤ 32768 := copied.bound sep.left (Nat.zero_le k)
    rw [uvmcopyLoop]
    split_ifs with more
    · rw [UInt64.lt_iff_toNat_lt] at more
      have page : i.toNat / 4096 = k := by omega
      have lt : k < pagesOf sz := by
        rw [pagesOf]
        omega
      have inRange : i < maxva := by
        rw [UInt64.lt_iff_toNat_lt]
        change _ < 0x4000000000
        omega
      obtain ⟨entries, contents⟩ := source_kept copied sep
      have leaf : Leaf (vm'.entry old k) := by
        rw [entries]
        exact leaves k lt
      rw [← page] at leaf
      obtain ⟨_, found, _, _, word⟩ := walk_valid inRange leaf.1
      rw [wp_bind, wp_ok found]
      rw [wp_bind, wp_loadPte, word, if_neg leaf.1, wp_bind, page, entries]
      apply wp_kalloc
      · intro _
        exact undoCopy_spec notKernel sep leaves newSpace copied here needed
      intro r left free
      -- The page to be copied is in use, so it is not the one that was free.
      have used : pte2pa (vm.entry old k) ≠ r := by
        rintro rfl
        have single := ((copied.moves.add (owned vm old (pagesOf sz))).separate (by
          have only : owned vm new 0 = tally (vm.tablePages new) := zero_add _
          rw [← only]
          exact sep)).single (pte2pa (vm.entry old k))
        have isFree : 0 < tally vm'.freelist (pte2pa (vm.entry old k)) :=
          tally_pos.mpr (free ▸ .head _)
        have isOwned : 0 < owned vm old (pagesOf sz) (pte2pa (vm.entry old k)) :=
          Nat.add_pos_left (tally_pos.mpr (mem_userPages lt)) _
        simp only [Pi.add_apply] at single
        omega
      rw [wp_bind, wp_get, wp_bind, wp_fill, takePage_mem_of_ne used, contents k lt]
      have taken := copied.beside sep.left.right (takePage_moves free
        (vm.mem (pte2pa (vm.entry old k))))
      apply wp_seq (taken.map sep.left.right (update_self _ _ _) (Nat.zero_le k)
        bound (newSpace.blank k (by omega) (Nat.zero_le k) (notKernel k bound)) (flags_bits _)
        here)
      intro done vm2 mapped
      cases done with
      | true =>
        have next : (i + pgsize).toNat = (k + 1) * 4096 := by
          change (i.toNat + 4096) % 2 ^ 64 = _
          omega
        exact ih mapped.1 next (by omega) (by omega)
      | false =>
        apply wp_seq (Extends.kfree sep.left.right mapped)
        intro _ vm3 freed
        exact undoCopy_spec notKernel sep leaves newSpace freed here needed
    obtain rfl : k = pagesOf sz := by
      rw [UInt64.lt_iff_toNat_lt] at more
      rw [pagesOf] at needed ⊢
      omega
    exact copied

/-- `uvmcopy` into a page table without user pages copies all pages, or none. -/
theorem uvmcopy_exact :
    wp (uvmcopy L old new sz)
      (fun done vm' => Copied old new vm (if done then pagesOf sz else 0) vm')
      Never vm := by
  apply uvmcopyLoop_spec notKernel sep leaves newSpace (Extends.refl newSpace.inner)
    (show (0 : UInt64).toNat = 0 * 4096 from rfl)
  · change _ < 0 + _
    omega
  · exact Nat.zero_le _

/-- `uvmcopy` keeps the shape of the new address space. -/
theorem uvmcopy_spec :
    wp (uvmcopy L old new sz)
      (fun done vm' => Moves (owned vm new 0) (owned vm' new (if done then pagesOf sz else 0)) vm vm' ∧
        Shape vm' new Leaf kernel (if done then pagesOf sz else 0)) Never vm := by
  apply wp_imp (uvmcopy_exact notKernel sep leaves newSpace)
  intro done _ copied
  have moves := copied.owned (Nat.zero_le _) (Nat.zero_le _)
  rw [zero_add] at moves
  refine ⟨moves, copied.shape newSpace (Nat.zero_le _) (copied.bound sep.left (Nat.zero_le _)) ?_⟩
  intro v lt r
  apply leaf_copy r (leaves v _)
  cases done with
  | true => exact lt
  | false => exact (Nat.not_lt_zero v lt).elim

end

/-! ### Writing user pages and their entries -/

/-- Whatever is written to a user page, the address space keeps its shape. -/
theorem fillUser (lt : v < n) (words : Nat → UInt64) (sep : L.Owns vm (owned vm pt n))
    (shape : Shape vm pt good kernel n) :
    let vm' : Vm := { vm with mem := update vm.mem (pte2pa (vm.entry pt v)) words }
    Moves (owned vm pt n) (owned vm' pt n) vm vm' ∧
      Shape vm' pt good kernel n := by
  intro vm'
  have bound : n ≤ 32768 := pages_bound sep
  have moves : Moves (tally (freedPages (vm.entry pt) true 0 n))
      (tally (freedPages (vm.entry pt) true 0 n)) vm vm' := by
    apply Moves.write (pte2pa (vm.entry pt v))
    · exact tally_pos.mpr (mem_userPages lt)
    · rfl
    · intro p ne
      exact update_of_ne ne _ _
  obtain ⟨same, entries⟩ := table_kept moves sep
  have kept : freedPages (vm'.entry pt) true 0 n =
      freedPages (vm.entry pt) true 0 n := freedPages_below fun v _ => entries v
  constructor
  · rw [owned, owned, kept, tablePages_of_same same]
    exact moves.add _
  · exact shape.congr (by omega) (same.inner Pointer shape.inner) fun v _ => entries v

/-- The entry of a user page loses the user bit. -/
theorem clear_shape {u : Nat} (bound : n ≤ 32768) (lt : u < n)
    (leaf : Leaf (vm.entry pt u)) (shape : Shape vm pt Leaf kernel n)
    (step : TableStep pt (fun v => if v = u then vm.entry pt u &&& ~~~ pteU
      else vm.entry pt v) vm vm') :
    Moves (owned vm pt n) (owned vm' pt n) vm vm' ∧
      Shape vm' pt Leaf kernel n := by
  constructor
  · have kept : freedPages (vm'.entry pt) true 0 n =
        freedPages (vm.entry pt) true 0 n := by
      apply List.map_congr_left
      intro v member
      rw [List.mem_range'_1] at member
      rw [step.entry v (by omega)]
      split_ifs with here
      · rw [pte2pa_clear, here]
      · rfl
    rw [owned, owned, kept]
    exact step.moves.add_left _
  constructor
  · exact step.inner
  · intro v small
    rw [step.entry v (by omega)]
    split
    · exact leaf_clear leaf
    · exact shape.user v small
  · intro v small above isKernel
    rw [step.entry v small, if_neg (by omega)]
    exact shape.fixed v small above isKernel
  · intro v small above notKernel
    rw [step.entry v small, if_neg (by omega)]
    exact shape.blank v small above notKernel

/-- `uvmclear` of a user page. -/
theorem uvmclear_spec {va : UInt64} (lt : va.toNat / 4096 < n) (sep : L.Owns vm (owned vm pt n))
    (shape : Shape vm pt Leaf kernel n) :
    wp (uvmclear pt va)
      (fun _ vm' => Moves (owned vm pt n) (owned vm' pt n) vm vm' ∧
        Shape vm' pt Leaf kernel n) Never vm := by
  have bound : n ≤ 32768 := pages_bound sep
  have inRange : va < maxva := by
    rw [UInt64.lt_iff_toNat_lt]
    change _ < 0x4000000000
    omega
  have leaf := shape.user _ lt
  obtain ⟨ptr, found, place, index, word⟩ := walk_valid inRange leaf.1
  rw [uvmclear, wp_bind, wp_ok found]
  rw [wp_bind, wp_loadPte, wp_storePte, word]
  exact clear_shape bound lt leaf shape (store_entry ptr sep.right shape.inner inRange
    place index _)

/-- A round of `copyout` fills the page up to its end or finishes. -/
theorem copyout_room {dstva len : UInt64}
    (enough : len.toNat + dstva.toNat % 4096 ≤ (rounds + 1) * 4096) :
    (len - if len < pgsize - (dstva - pgrounddown dstva) then len
      else pgsize - (dstva - pgrounddown dstva)).toNat +
      (pgrounddown dstva + pgsize).toNat % 4096 ≤ rounds * 4096 := by
  have down := toNat_pgrounddown dstva
  have offset : (dstva - pgrounddown dstva).toNat = dstva.toNat % 4096 := by
    rw [UInt64.toNat_sub_of_le _ _ (UInt64.le_iff_toNat_le.mpr (by omega)), down]
    omega
  have room : (pgsize - (dstva - pgrounddown dstva)).toNat = 4096 - dstva.toNat % 4096 := by
    rw [UInt64.toNat_sub_of_le _ _ (UInt64.le_iff_toNat_le.mpr (by
      change _ ≤ 4096
      omega)), offset]
    rfl
  have next : (pgrounddown dstva + pgsize).toNat % 4096 = 0 := by
    rw [UInt64.toNat_add, down]
    change (dstva.toNat / 4096 * 4096 + 4096) % 2 ^ 64 % 4096 = 0
    omega
  rw [next]
  split_ifs with more
  · rw [UInt64.sub_self]
    change 0 + 0 ≤ _
    omega
  · rw [UInt64.not_lt] at more
    rw [UInt64.toNat_sub_of_le _ _ more, room]
    omega

/-- The loop of `copyout`: it writes user pages only. -/
theorem copyoutLoop_spec (data : UInt64 → Nat → UInt64) {dstva len : UInt64}
    (sep : L.Owns vm (owned vm pt n)) (shape : Shape vm pt good kernel n)
    (enough : len.toNat + dstva.toNat % 4096 ≤ rounds * 4096) :
    wp (copyoutLoop pt data rounds dstva len)
      (fun _ vm' => Moves (owned vm pt n) (owned vm' pt n) vm vm' ∧
        Shape vm' pt good kernel n) Never vm := by
  induction rounds generalizing dstva len vm with
  | zero =>
    have none : ¬ 0 < len := by
      change ¬ 0 < len.toNat
      omega
    rw [copyoutLoop, if_neg none]
    exact ⟨Moves.refl, shape⟩
  | succ _ ih =>
    rw [copyoutLoop]
    split_ifs with more
    · dsimp only
      split
      · exact ⟨Moves.refl, shape⟩
      rename_i inRange
      rw [UInt64.not_le] at inRange
      rw [wp_bind, wp_ok (walk_lookup inRange)]
      cases place : sv39.leafPage vm.mem 2 pt ((pgrounddown dstva).toNat / 4096) with
      | none => exact ⟨Moves.refl, shape⟩
      | some leaf =>
        have word : vm.mem leaf (px 0 (pgrounddown dstva)) =
            vm.entry pt ((pgrounddown dstva).toNat / 4096) :=
          load_entry (leaf, px 0 (pgrounddown dstva)) place rfl
        change wp (loadPte (leaf, px 0 (pgrounddown dstva)) >>= _) _ _ _
        change wp (if vm.mem leaf (px 0 (pgrounddown dstva)) &&& pteV = 0 ∨
          vm.mem leaf (px 0 (pgrounddown dstva)) &&& pteU = 0 ∨
          vm.mem leaf (px 0 (pgrounddown dstva)) &&& pteW = 0 then _ else _) _ _ _
        rw [word]
        split
        · exact ⟨Moves.refl, shape⟩
        rename_i usable
        rw [not_or, not_or] at usable
        -- Only the entries of user pages have both V and U.
        have lt : (pgrounddown dstva).toNat / 4096 < n := by
          by_contra above
          by_cases isKernel : kernel ((pgrounddown dstva).toNat / 4096)
          · exact usable.2.1 (shape.fixed _ (page_lt inRange) (by omega) isKernel).2
          · rw [shape.blank _ (page_lt inRange) (by omega) isKernel] at usable
            exact usable.1 (by decide)
        obtain ⟨wrote, shape1⟩ := fillUser lt (data (pgrounddown dstva)) sep shape
        apply wp_imp (ih (wrote.separate sep) shape1 _)
        · rintro _ _ ⟨rest, shape2⟩
          exact ⟨wrote.trans rest, shape2⟩
        · exact copyout_room enough
    · exact ⟨Moves.refl, shape⟩

/-- `copyout` keeps the shape of the address space. -/
theorem copyout_spec (data : UInt64 → Nat → UInt64) {dstva len : UInt64}
    (sep : L.Owns vm (owned vm pt n)) (shape : Shape vm pt good kernel n) :
    wp (copyout pt dstva data len)
      (fun _ vm' => Moves (owned vm pt n) (owned vm' pt n) vm vm' ∧
        Shape vm' pt good kernel n) Never vm := by
  apply copyoutLoop_spec data sep shape
  omega

/-! ### What growing and copying leave -/

variable {p : UInt64} {perm : Nat → UInt64} {words : Nat → Nat → UInt64}

/-- A page in use by anything but the table is none of its new pages. -/
theorem Extends.fresh (ext : Extends pt perm words vm n k 0 vm') (used : p ∉ vm.freelist)
    (notTable : p ∉ vm.tablePages pt) (low : n ≤ v) (high : v < k) :
    p ≠ pte2pa (vm'.entry pt v) := by
  rintro rfl
  have conserve := ext.moves.conserve (pte2pa (vm'.entry pt v))
  have member : 0 < tally (freedPages (vm'.entry pt) true n (k - n))
      (pte2pa (vm'.entry pt v)) :=
    tally_pos.mpr (List.mem_map.mpr ⟨v, List.mem_range'_1.mpr ⟨low, by omega⟩, rfl⟩)
  rw [← List.count_eq_zero] at used notTable
  simp only [Pi.add_apply, tally] at conserve member
  omega

/-- A page that is not free and not part of the table keeps its contents. -/
theorem Extends.contents (ext : Extends pt perm words vm n k 0 vm') (used : p ∉ vm.freelist)
    (notTable : p ∉ vm.tablePages pt) : vm'.mem p = vm.mem p := by
  apply ext.moves.frame
  rw [tally, tally, List.count_eq_zero.mpr used, List.count_eq_zero.mpr notTable]

theorem bits_grow (bits : xperm.toNat < 1024) : (pteR ||| pteU ||| xperm ||| pteV).toNat < 1024 := by
  have h : ∀ a b : Nat, a < 1024 → b < 1024 → a ||| b < 1024 := fun a b ha hb => Nat.or_lt_two_pow (n := 10) ha hb
  exact h _ _ (h _ _ (by decide) bits) (by decide)

/-- `uvmalloc` on a table of which exactly the pages below `oldsz` are mapped.  If it fails,
at whatever page, every entry is as before and each page that was free is free again or a
page of the page table.  If it succeeds, the pages up to `newsz` are new, zero and open to
the user.  In any case pages in use keep their contents. -/
theorem uvmalloc_all_or_nothing
    (sep : Separate (InPool L) vm (owned vm pt (pagesOf oldsz)))
    (shape : Shape vm pt Leaf kernel (pagesOf oldsz)) (notKernel : ∀ v ≤ 32768, ¬ kernel v)
    (bits : xperm.toNat < 1024) :
    wp (uvmalloc L pt oldsz newsz xperm)
      (fun r vm' =>
        (∀ p, p ∉ vm.freelist → p ∉ vm.tablePages pt → vm'.mem p = vm.mem p) ∧
        ((r = 0 ∧ (∀ v < 2 ^ 27, vm'.entry pt v = vm.entry pt v) ∧
            ∀ p ∈ vm.freelist, p ∈ vm'.freelist ∨ p ∈ vm'.tablePages pt) ∨
          (newsz < oldsz ∧ r = oldsz ∧ vm' = vm) ∨
          (oldsz ≤ newsz ∧ r = newsz ∧
            (∀ v < 2 ^ 27, ¬ (pagesOf oldsz ≤ v ∧ v < pagesOf newsz) →
              vm'.entry pt v = vm.entry pt v) ∧
            ∀ v, pagesOf oldsz ≤ v → v < pagesOf newsz → ∃ page,
              vm'.entry pt v = pa2pte page ||| (pteR ||| pteU ||| xperm) ||| pteV ∧
              pte2pa (vm'.entry pt v) = page ∧ vm'.mem page = fun _ => 0)))
      (fun _ => False) vm := by
  by_cases less : newsz < oldsz
  · rw [uvmalloc, if_pos less]
    exact ⟨fun _ _ _ => rfl, .inr (.inl ⟨less, rfl, rfl⟩)⟩
  have isLeaf : ∀ r, Leaf (pa2pte r ||| (pteR ||| pteU ||| xperm) ||| pteV) := by
    intro r
    rw [UInt64.or_assoc]
    apply leaf_encode r (bits_grow bits) (or_and_ne_zero_right (by decide))
    exact or_and_ne_zero_left (or_and_ne_zero_left (by decide))
  have notLess := UInt64.not_lt.mp less
  apply wp_imp (uvmalloc_exact sep shape.inner
    (fun v low high => shape.blank v (by omega) low (notKernel v high)) isLeaf (bits_grow bits)
    notLess)
  rintro r _ (⟨rfl, zeroed⟩ | ⟨isZero, zeroed⟩)
  · exact ⟨fun p => zeroed.contents, .inr (.inr ⟨notLess, rfl, zeroed.other, zeroed.new⟩)⟩
  refine ⟨fun p => zeroed.contents, .inl ⟨isZero, fun v small => ?_, fun p free => ?_⟩⟩
  · exact zeroed.other v small (by omega)
  have conserve := zeroed.moves.conserve p
  have isFree := tally_pos.mpr free
  rw [Nat.sub_self] at conserve
  rw [← tally_pos, ← tally_pos]
  change _ + (0 + (0 + _)) = _ at conserve
  omega

/-- A valid entry has the valid bit. -/
theorem flags_valid {pte : UInt64} (valid : pte &&& pteV ≠ 0) :
    pteFlags pte ||| pteV = pteFlags pte := by
  rw [and_flag (by decide), Ne, ← UInt64.toNat_inj, UInt64.toNat_and] at valid
  rw [← UInt64.toNat_inj, UInt64.toNat_or]
  change ¬ (pteFlags pte).toNat &&& 1 = 0 at valid
  change (pteFlags pte).toNat ||| 1 = _
  rw [Nat.and_one_is_mod] at valid
  have odd : (pteFlags pte).toNat = ((pteFlags pte).toNat / 2) <<< 1 ||| 1 := by
    rw [← Nat.shiftLeft_add_eq_or_of_lt (show 1 < 2 ^ 1 by decide), Nat.shiftLeft_eq]
    omega
  rw [odd, Nat.or_assoc, Nat.or_self]

/-- `uvmcopy` of the pages below `sz`, all of them mapped, into a table without user pages.
The old table and its pages are as before.  Each page is mapped in the new table with the
same flags and contents, on a page of its own that was not in use, or none is. -/
theorem uvmcopy_independent (notKernel : ∀ v ≤ 32768, ¬ kernel v)
    (sep : Separate (InPool L) vm (owned vm new 0 + owned vm old (pagesOf sz)))
    (leaves : ∀ v < pagesOf sz, Leaf (vm.entry old v)) (newSpace : Shape vm new Leaf kernel 0) :
    wp (uvmcopy L old new sz)
      (fun done vm' =>
        (∀ v, vm'.entry old v = vm.entry old v) ∧
        (∀ v < pagesOf sz, vm'.mem (pte2pa (vm.entry old v)) = vm.mem (pte2pa (vm.entry old v))) ∧
        if done then ∀ v < pagesOf sz,
          pteFlags (vm'.entry new v) = pteFlags (vm.entry old v) ∧
          vm'.mem (pte2pa (vm'.entry new v)) = vm.mem (pte2pa (vm.entry old v)) ∧
          (∀ p, p ∉ vm.freelist → p ∉ vm.tablePages new → p ≠ pte2pa (vm'.entry new v)) ∧
          (∀ w < pagesOf sz, pte2pa (vm.entry old w) ≠ pte2pa (vm'.entry new v)) ∧
          ∀ w < pagesOf sz, pte2pa (vm'.entry new w) = pte2pa (vm'.entry new v) → w = v
        else ∀ v < pagesOf sz, vm'.entry new v = 0)
      (fun _ => False) vm := by
  apply wp_imp (uvmcopy_exact notKernel sep leaves newSpace)
  intro done _ copied
  obtain ⟨entries, contents⟩ := source_kept copied sep
  refine ⟨entries, contents, ?_⟩
  cases done with
  | true =>
    rw [if_pos rfl] at copied
    have apart := ((copied.owned (Nat.zero_le _) (Nat.zero_le _)).separate sep.left).right
    intro v lt
    obtain ⟨r, entry, target, copy⟩ := copied.new v (Nat.zero_le v) lt
    refine ⟨?_, by rw [target, copy], fun p used notTable => ?_, fun w inside' => ?_, ?_⟩
    · rw [entry, UInt64.or_assoc, pteFlags_encode r (flags_bits _), flags_valid (leaves v lt).1]
    · exact copied.fresh used notTable (Nat.zero_le v) lt
    · have out := sep.outside (p := pte2pa (vm.entry old w))
        (Nat.add_pos_left (tally_pos.mpr (mem_userPages inside')) _)
      have only : owned vm new 0 = tally (vm.tablePages new) := zero_add _
      rw [only, Nat.add_eq_zero_iff] at out
      exact copied.fresh (List.count_eq_zero.mp out.1) (List.count_eq_zero.mp out.2)
        (Nat.zero_le v) lt
    · intro w _ same
      exact List.inj_on_of_nodup_map apart.left.nodup
        (List.mem_range'_1.mpr ⟨Nat.zero_le w, by omega⟩)
        (List.mem_range'_1.mpr ⟨Nat.zero_le v, by omega⟩) same
  | false =>
    have bound : pagesOf sz ≤ 32768 := pages_bound sep.right
    intro v _
    rw [copied.other v (by omega) (fun new => Nat.not_lt_zero v new.2)]
    exact newSpace.blank v (by omega) (Nat.zero_le v) (notKernel v (by omega))

/-! ### A memory of a few pages -/

/-- Distinct pages of memory, some of them free. -/
theorem separate_of_nodup {pages : List UInt64}
    (nodup : (vm.freelist ++ pages).Nodup) (inPool : ∀ p ∈ vm.freelist ++ pages, InPool L p) :
    L.Owns vm (tally pages) := by
  constructor
  · intro p
    have single := List.nodup_iff_count_le_one.mp nodup p
    rwa [List.count_append] at single
  · intro p here
    apply inPool p
    rw [← List.count_pos_iff, List.count_append]
    exact here

instance (pte : UInt64) : Decidable (Leaf pte) := inferInstanceAs (Decidable (_ ∧ _))

instance (L : Layout) (pa : UInt64) : Decidable (InPool L pa) :=
  decidable_of_iff (Aligned pa ∧ L.kend ≤ pa ∧ pa < phystop)
    ⟨fun all => ⟨all.1, all.2.1, all.2.2⟩, fun pool => ⟨pool.aligned, pool.low, pool.high⟩⟩

/-- Page 0 is a page table with two user pages, 3 and 9; page 4 is an empty page table. -/
def sampleVm : Vm where
  freelist := [samplePage 5, samplePage 6, samplePage 7, samplePage 8]
  mem := update (update (update (fun _ _ => 0)
    (samplePage 0) (update (fun _ => 0) 0 (pa2pte (samplePage 1) ||| pteV)))
    (samplePage 1) (update (fun _ => 0) 0 (pa2pte (samplePage 2) ||| pteV)))
    (samplePage 2) (update (update (fun _ => 0)
      0 (pa2pte (samplePage 3) ||| (pteR ||| pteW ||| pteU) ||| pteV))
      1 (pa2pte (samplePage 9) ||| (pteR ||| pteU) ||| pteV))

theorem sampleVm_separate : Separate (InPool smallLayout) sampleVm
    (owned sampleVm (samplePage 4) 0 + owned sampleVm (samplePage 0) (pagesOf 8192)) := by
  have pages : freedPages (sampleVm.entry (samplePage 4)) true 0 0 ++
      sampleVm.tablePages (samplePage 4) ++
      (freedPages (sampleVm.entry (samplePage 0)) true 0 (pagesOf 8192) ++
        sampleVm.tablePages (samplePage 0)) =
      [samplePage 4, samplePage 3, samplePage 9, samplePage 0, samplePage 1, samplePage 2] := by
    decide +kernel
  rw [owned, owned, ← tally_append, ← tally_append, ← tally_append, pages]
  exact separate_of_nodup (by decide) (by decide)

theorem sampleVm_blank : Shape sampleVm (samplePage 4) Leaf (fun _ => False) 0 := by
  have blank : ∀ i, sampleVm.mem (samplePage 4) i = sv39.blank := fun _ => rfl
  exact ⟨Format.inner_blank (.inl rfl) blank, fun v absurd => (Nat.not_lt_zero v absurd).elim,
    fun _ _ _ absurd => absurd.elim, fun v _ _ _ => Format.entry_blank blank v⟩

/-- Two pages for a process without memory. -/
theorem uvmalloc_all_or_nothing_two_pages :
    wp (uvmalloc smallLayout (samplePage 4) 0 5000 pteW)
      (fun r vm' => r = 0 ∨ r = 5000 ∧ ∀ v < 2, ∃ page,
        vm'.entry (samplePage 4) v = pa2pte page ||| (pteR ||| pteU ||| pteW) ||| pteV)
      (fun _ => False) sampleVm := by
  have sep : smallLayout.Owns sampleVm (owned sampleVm (samplePage 4) (pagesOf 0)) :=
    sampleVm_separate.left
  apply wp_imp (uvmalloc_all_or_nothing sep sampleVm_blank (fun _ _ => id) (by decide))
  rintro r _ ⟨_, failed | shrunk | grown⟩
  · exact .inl failed.1
  · cases shrunk.1
  refine .inr ⟨grown.2.1, fun v lt => ?_⟩
  obtain ⟨page, entry, _⟩ := grown.2.2.2 v (Nat.zero_le v) lt
  exact ⟨page, entry⟩

/-- Two pages are copied, with their different flags, to two others. -/
theorem uvmcopy_independent_two_pages :
    wp (uvmcopy smallLayout (samplePage 0) (samplePage 4) 8192)
      (fun done vm' => done = true ∧
        (∀ v < 2, pteFlags (vm'.entry (samplePage 4) v) =
          pteFlags (sampleVm.entry (samplePage 0) v)) ∧
        samplePage 9 ≠ pte2pa (vm'.entry (samplePage 4) 0) ∧
        pte2pa (vm'.entry (samplePage 4) 0) ≠ pte2pa (vm'.entry (samplePage 4) 1))
      (fun _ => False) sampleVm := by
  obtain ⟨done, vm', ran, _, _, copied⟩ := exists_of_wp (uvmcopy_independent (fun _ _ => id)
    sampleVm_separate (by decide +kernel) sampleVm_blank)
  have succeeds : (uvmcopy smallLayout (samplePage 0) (samplePage 4) 8192 sampleVm).toOption.map
      (·.1) = some true := by decide +kernel
  rw [ran] at succeeds
  cases succeeds
  rw [wp_ok ran]
  refine ⟨rfl, fun v lt => (copied v lt).1, (copied 0 (by decide)).2.2.2.1 1 (by decide),
    fun same => ?_⟩
  cases (copied 1 (by decide)).2.2.2.2 0 (by decide) same

/-!
`exec` works on a file it does not trust: its bytes are arbitrary, and so is whether `readi`
returns all the bytes it was asked for.  What is written to user pages is given by the address
of the page; nothing below reads it.
-/

/-- The file: its bytes, and whether `readi(ip, 0, dst, off, n)` returns `n`. -/
structure ElfFile where
  byte : Nat → UInt8
  reads : UInt32 → UInt32 → Bool

/-- A field of `len` bytes, the lowest byte first. -/
def ElfFile.field (file : ElfFile) (off len : Nat) : Nat :=
  (List.range len).foldr (fun i high => (file.byte (off + i)).toNat + 256 * high) 0

/-- The fields of `struct proghdr` that `exec` uses. -/
structure ProgHdr where
  type : UInt32
  flags : UInt32
  off : UInt64
  vaddr : UInt64
  filesz : UInt64
  memsz : UInt64

def ElfFile.progHdr (file : ElfFile) (off : UInt32) : ProgHdr where
  type := UInt32.ofNat (file.field off.toNat 4)
  flags := UInt32.ofNat (file.field (off.toNat + 4) 4)
  off := UInt64.ofNat (file.field (off.toNat + 8) 8)
  vaddr := UInt64.ofNat (file.field (off.toNat + 16) 8)
  filesz := UInt64.ofNat (file.field (off.toNat + 32) 8)
  memsz := UInt64.ofNat (file.field (off.toNat + 40) 8)

/-- The arguments of `exec`: the file, if `namei` finds it, the lengths of the
argument strings, and the contents of the user pages it writes. -/
structure ExecInput where
  file : Option ElfFile
  argv : List UInt64
  data : UInt64 → Nat → UInt64

def flags2perm (flags : UInt32) : UInt64 :=
  let perm := if flags &&& 0x1 ≠ 0 then pteX else 0
  if flags &&& 0x2 ≠ 0 then perm ||| pteW else perm

/-- The loop of `loadseg`.  A short read may have written part of the page. -/
def loadsegLoop (pagetable va : UInt64) (file : ElfFile) (offset sz : UInt32)
    (data : UInt64 → Nat → UInt64) : Nat → UInt32 → VmM Bool
  | 0, i => if i < sz then throw .unbounded else pure true
  | rounds + 1, i =>
    if i < sz then do
      let pa ← walkaddr pagetable (va + i.toUInt64)
      if pa = 0 then throw .loadseg
      else
        fill pa (data (va + i.toUInt64))
        if file.reads (offset + i) (if sz - i < 4096 then sz - i else 4096) then
          loadsegLoop pagetable va file offset sz data rounds (i + 4096)
        else pure false
    else pure true

/-- `loadseg`; `true` is the return value 0 and `false` is -1. -/
def loadseg (pagetable va : UInt64) (file : ElfFile) (offset sz : UInt32)
    (data : UInt64 → Nat → UInt64) : VmM Bool :=
  loadsegLoop pagetable va file offset sz data (sz.toNat / 4096 + 1) 0

/-- What `exec` does with one program header: the new `sz`, and whether it goes
on (`false` is `goto bad`). -/
def execSegment (L : Layout) (pagetable : UInt64) (file : ElfFile) (data : UInt64 → Nat → UInt64)
    (sz : UInt64) (ph : ProgHdr) : VmM (UInt64 × Bool) :=
  if ph.type ≠ 1 then pure (sz, true)
  else if ph.memsz < ph.filesz then pure (sz, false)
  else if ph.vaddr + ph.memsz < ph.vaddr then pure (sz, false)
  else if ph.vaddr % pgsize ≠ 0 then pure (sz, false)
  else do
    let sz1 ← uvmalloc L pagetable sz (ph.vaddr + ph.memsz) (flags2perm ph.flags)
    if sz1 = 0 then pure (sz, false)
    else
      let loaded ← loadseg pagetable ph.vaddr file ph.off.toUInt32 ph.filesz.toUInt32 data
      pure (sz1, loaded)

/-- The loop of `exec` over the program headers; the offset is an `int`. -/
def execLoad (L : Layout) (pagetable : UInt64) (file : ElfFile) (data : UInt64 → Nat → UInt64) :
    Nat → UInt32 → UInt64 → VmM (UInt64 × Bool)
  | 0, _, sz => pure (sz, true)
  | left + 1, off, sz =>
    if file.reads off 56 then do
      match ← execSegment L pagetable file data sz (file.progHdr off) with
      | (sz1, true) => execLoad L pagetable file data left (off + 56) sz1
      | (sz1, false) => pure (sz1, false)
    else pure (sz, false)

/-- The loop of `exec` over the argument strings, with the lengths of those left. -/
def execStrings (pagetable stackbase : UInt64) (data : UInt64 → Nat → UInt64) :
    List UInt64 → UInt64 → UInt64 → VmM (Option (UInt64 × UInt64))
  | [], argc, sp => pure (some (argc, sp))
  | len :: rest, argc, sp =>
    if 32 ≤ argc then pure none
    else
      let low := sp - (len + 1)
      let sp' := low - low % 16
      if sp' < stackbase then pure none
      else do
        if ← copyout pagetable sp' data (len + 1) then
          execStrings pagetable stackbase data rest (argc + 1) sp'
        else pure none

/-- The stack of the new image: the new `sz`, and the stack pointer unless `exec`
goes to `bad`. -/
def execStack (L : Layout) (pagetable : UInt64) (argv : List UInt64)
    (data : UInt64 → Nat → UInt64) (sz : UInt64) : VmM (UInt64 × Option UInt64) := do
  let sz1 ← uvmalloc L pagetable (pgroundup sz) (pgroundup sz + 2 * pgsize) pteW
  if sz1 = 0 then pure (pgroundup sz, none)
  else
    uvmclear pagetable (sz1 - 2 * pgsize)
    match ← execStrings pagetable (sz1 - pgsize) data argv 0 sz1 with
    | none => pure (sz1, none)
    | some (argc, sp) =>
      let low := sp - (argc + 1) * 8
      let sp' := low - low % 16
      if sp' < sz1 - pgsize then pure (sz1, none)
      else
        let done ← copyout pagetable sp' data ((argc + 1) * 8)
        pure (sz1, if done then some sp' else none)

/-- `exec` up to the point where it commits: the new page table and its size, or
nothing. -/
def execImage (L : Layout) (trapframe : UInt64) (input : ExecInput) :
    VmM (Option (UInt64 × UInt64)) :=
  match input.file with
  | none => pure none
  | some file =>
    if ! file.reads 0 64 then pure none
    else if file.field 0 4 ≠ 0x464C457F then pure none
    else do
      match ← procPagetable L trapframe with
      | none => pure none
      | some pagetable =>
        match ← execLoad L pagetable file input.data (file.field 56 2)
            (UInt64.ofNat (file.field 32 8)).toUInt32 0 with
        | (sz, false) =>
          procFreepagetable L pagetable sz
          pure none
        | (sz, true) =>
          match ← execStack L pagetable input.argv input.data sz with
          | (sz1, none) =>
            procFreepagetable L pagetable sz1
            pure none
          | (sz1, some _) => pure (some (pagetable, sz1))

/-- What `exec` asks of the log and of the inode of the file. -/
inductive ExecEvent where
  | beginOp
  | ilock
  | iunlockput
  | endOp
deriving DecidableEq, Repr

structure ExecCommit where
  pagetable : UInt64
  sz : UInt64
  sp : UInt64
  entry : UInt64

/-- The label `bad`, with the values of `pagetable` and `sz` there and whether `ip`
is not null, after the calls `events`. -/
def execBad (L : Layout) (pagetable : Option UInt64) (sz : UInt64) (ip : Bool)
    (events : List ExecEvent) : VmM (Option ExecCommit × List ExecEvent) := do
  match pagetable with
  | some pagetable => procFreepagetable L pagetable sz
  | none => pure ()
  pure (none, if ip then events ++ [.iunlockput, .endOp] else events)

/-- The same as `execImage`, with the calls it makes and all it commits to. -/
def execPrepare (L : Layout) (trapframe : UInt64) (input : ExecInput) :
    VmM (Option ExecCommit × List ExecEvent) :=
  match input.file with
  | none => pure (none, [.beginOp, .endOp])
  | some file =>
    if ! file.reads 0 64 then execBad L none 0 true [.beginOp, .ilock]
    else if file.field 0 4 ≠ 0x464C457F then execBad L none 0 true [.beginOp, .ilock]
    else do
      match ← procPagetable L trapframe with
      | none => execBad L none 0 true [.beginOp, .ilock]
      | some pagetable =>
        match ← execLoad L pagetable file input.data (file.field 56 2)
            (UInt64.ofNat (file.field 32 8)).toUInt32 0 with
        | (sz, false) => execBad L (some pagetable) sz true [.beginOp, .ilock]
        | (sz, true) =>
          match ← execStack L pagetable input.argv input.data sz with
          | (sz1, none) =>
            execBad L (some pagetable) sz1 false [.beginOp, .ilock, .iunlockput, .endOp]
          | (sz1, some sp) =>
            pure (some ⟨pagetable, sz1, sp, UInt64.ofNat (file.field 24 8)⟩,
              [.beginOp, .ilock, .iunlockput, .endOp])

/-! ### Segments -/

variable {file : ElfFile} {data : UInt64 → Nat → UInt64}

/-- The pages of the new image can all be used by user code, so that `walkaddr` finds them. -/
abbrev Loading (vm : Vm) (pt : UInt64) (n : Nat) : Prop :=
  Shape vm pt UserLeaf KernelPage n

/-- A user page is a page of the pool, so its address is not 0. -/
theorem userPage_ne_zero (lt : v < n) (sep : L.Owns vm (owned vm pt n)) :
    pte2pa (vm.entry pt v) ≠ 0 := by
  intro zero
  have ok : InPool L (pte2pa (vm.entry pt v)) := by
    apply sep.left.good
    exact Nat.add_pos_right _ (tally_pos.mpr (mem_userPages lt))
  have low := UInt64.le_iff_toNat_le.mp ok.low
  have base : 0x80000000 ≤ L.kend.toNat := UInt64.le_iff_toNat_le.mp L.kend_low
  rw [zero] at low
  change _ ≤ 0 at low
  omega

variable {va : UInt64}

/-- The loop of `loadseg`: the addresses it writes exist. -/
theorem loadsegLoop_spec {offset sz : UInt32} {i : UInt32}
    (sep : L.Owns vm (owned vm pt n)) (loading : Loading vm pt n)
    (mapped : va.toNat + sz.toNat ≤ n * 4096) (enough : sz.toNat < i.toNat + rounds * 4096) :
    wp (loadsegLoop pt va file offset sz data rounds i)
      (fun _ vm' => Moves (owned vm pt n) (owned vm' pt n) vm vm' ∧
        Loading vm' pt n) Never vm := by
  induction rounds generalizing i vm with
  | zero =>
    have run : ¬ i < sz := by
      rw [UInt32.lt_iff_toNat_lt]
      omega
    rw [loadsegLoop, if_neg run]
    exact ⟨Moves.refl, loading⟩
  | succ _ ih =>
    rw [loadsegLoop]
    split
    · rename_i more
      rw [UInt32.lt_iff_toNat_lt] at more
      have bound : n ≤ 32768 := pages_bound sep
      have addr : (va + i.toUInt64).toNat = va.toNat + i.toNat := by
        rw [UInt64.toNat_add, UInt32.toNat_toUInt64]
        omega
      have lt : (va + i.toUInt64).toNat / 4096 < n := by omega
      have inRange : va + i.toUInt64 < maxva := by
        rw [UInt64.lt_iff_toNat_lt, addr]
        change _ < 0x4000000000
        omega
      have leaf := loading.user _ lt
      rw [wp_bind, wp_ok (walkaddr_eq vm pt inRange), userAddress_decode, if_neg leaf.1.1,
        if_neg leaf.2, if_neg (userPage_ne_zero lt sep), wp_bind, wp_fill]
      obtain ⟨wrote, loading1⟩ := fillUser lt (data (va + i.toUInt64)) sep loading
      generalize (if sz - i < 4096 then sz - i else 4096) = count
      split
      · have next : (i + 4096).toNat = i.toNat + 4096 := by
          change (i.toNat + 4096) % 2 ^ 32 = _
          omega
        apply wp_imp (ih (wrote.separate sep) loading1 (by rw [next]; omega))
        rintro _ _ ⟨rest, loading2⟩
        exact ⟨wrote.trans rest, loading2⟩
      · exact ⟨wrote, loading1⟩
    · exact ⟨Moves.refl, loading⟩

/-- `loadseg` of a range that is mapped. -/
theorem loadseg_spec {offset sz : UInt32}
    (sep : L.Owns vm (owned vm pt n)) (loading : Loading vm pt n)
    (mapped : va.toNat + sz.toNat ≤ n * 4096) :
    wp (loadseg pt va file offset sz data)
      (fun _ vm' => Moves (owned vm pt n) (owned vm' pt n) vm vm' ∧
        Loading vm' pt n) Never vm := by
  apply loadsegLoop_spec sep loading mapped
  omega

/-- The pages `uvmalloc` makes for a segment are user pages. -/
theorem flags2perm_cases (flags : UInt32) :
    flags2perm flags = 0 ∨ flags2perm flags = pteX ∨ flags2perm flags = pteW ∨
      flags2perm flags = pteX ||| pteW := by
  rw [flags2perm]
  by_cases executable : flags &&& 0x1 ≠ 0
  · by_cases writable : flags &&& 0x2 ≠ 0
    · simp only [if_pos executable, if_pos writable]
      tauto
    · simp only [if_pos executable, if_neg writable]
      tauto
  by_cases writable : flags &&& 0x2 ≠ 0
  · simp only [if_neg executable, if_pos writable]
    exact .inr (.inr (.inl (by decide)))
  · simp only [if_neg executable, if_neg writable]
    tauto

theorem segment_userLeaf (flags : UInt32) (r : UInt64) :
    UserLeaf (pa2pte r ||| (pteR ||| pteU ||| flags2perm flags) ||| pteV) := by
  rw [UInt64.or_assoc]
  rcases flags2perm_cases flags with perm | perm | perm | perm <;> rw [perm] <;>
    exact userLeaf_encode r (by decide) (by decide) (by decide) (by decide)

theorem segment_bits (flags : UInt32) :
    (pteR ||| pteU ||| flags2perm flags ||| pteV).toNat < 1024 := by
  rcases flags2perm_cases flags with perm | perm | perm | perm <;> rw [perm] <;> decide

/-- The bytes of the file that a segment takes are below the new size, so `filesz` is not cut. -/
theorem segment_mapped {ph : ProgHdr} {sz1 : UInt64} (sizes : ¬ ph.memsz < ph.filesz)
    (noWrap : ¬ ph.vaddr + ph.memsz < ph.vaddr)
    (isSize : sz1 = if ph.vaddr + ph.memsz < sz then sz else ph.vaddr + ph.memsz) :
    ph.vaddr.toNat + ph.filesz.toUInt32.toNat ≤ pagesOf sz1 * 4096 := by
  rw [UInt64.not_lt, UInt64.le_iff_toNat_le] at sizes noWrap
  have sum : (ph.vaddr + ph.memsz).toNat = ph.vaddr.toNat + ph.memsz.toNat := by
    rw [UInt64.toNat_add] at noWrap ⊢
    have := ph.memsz.toNat_lt
    omega
  have above : (ph.vaddr + ph.memsz).toNat ≤ sz1.toNat := by
    rw [isSize]
    split_ifs with less
    · exact Nat.le_of_lt (UInt64.lt_iff_toNat_lt.mp less)
    · exact le_rfl
  have cut : ph.filesz.toUInt32.toNat ≤ ph.filesz.toNat := by
    exact Nat.mod_le _ _
  rw [pagesOf]
  omega

/-- One program header, whatever it says. -/
theorem execSegment_spec (ph : ProgHdr) (sep : L.Owns vm (owned vm pt (pagesOf sz)))
    (loading : Loading vm pt (pagesOf sz)) :
    wp (execSegment L pt file data sz ph)
      (fun res vm' =>
        Moves (owned vm pt (pagesOf sz)) (owned vm' pt (pagesOf res.1)) vm vm' ∧
          Loading vm' pt (pagesOf res.1)) Never vm := by
  have kept : Moves (owned vm pt (pagesOf sz)) (owned vm pt (pagesOf sz)) vm vm ∧
      Loading vm pt (pagesOf sz) := ⟨Moves.refl, loading⟩
  rw [execSegment]
  split
  · exact kept
  split
  · exact kept
  rename_i sizes
  split
  · exact kept
  rename_i noWrap
  split
  · exact kept
  apply wp_seq (uvmalloc_spec (fun _ leaf => leaf.1) (fun _ low => notKernelPage low)
    (segment_userLeaf ph.flags) (segment_bits ph.flags) sep loading)
  intro _ _ grew
  split
  · -- Without memory, and also when a segment ends at 0, everything is as before.
    rename_i isZero
    rcases grew with ⟨isSize, grew⟩ | ⟨_, grew⟩
    · rw [pagesOf_failed isZero isSize] at grew
      exact ⟨grew.moves, grew.shape⟩
    · exact ⟨grew.moves, grew.shape⟩
  rename_i notZero
  rcases grew with ⟨isSize, grew⟩ | ⟨isZero, _⟩
  · have sep1 := grew.moves.separate sep
    apply wp_seq (loadseg_spec sep1 grew.shape (segment_mapped sizes noWrap isSize))
    rintro _ _ ⟨moves, loading2⟩
    exact ⟨grew.moves.trans moves, loading2⟩
  · exact (notZero isZero).elim

/-- The loop over the program headers. -/
theorem execLoad_spec {left : Nat} {off : UInt32} (sep : L.Owns vm (owned vm pt (pagesOf sz)))
    (loading : Loading vm pt (pagesOf sz)) :
    wp (execLoad L pt file data left off sz)
      (fun res vm' =>
        Moves (owned vm pt (pagesOf sz)) (owned vm' pt (pagesOf res.1)) vm vm' ∧
          Loading vm' pt (pagesOf res.1)) Never vm := by
  induction left generalizing off sz vm with
  | zero => exact ⟨Moves.refl, loading⟩
  | succ _ ih =>
    rw [execLoad]
    split
    · apply wp_seq (execSegment_spec (file.progHdr off) sep loading)
      rintro ⟨_, goesOn⟩ _ ⟨moves, loading1⟩
      cases goesOn with
      | true =>
        apply wp_imp (ih (moves.separate sep) loading1)
        rintro _ _ ⟨rest, loading2⟩
        exact ⟨moves.trans rest, loading2⟩
      | false => exact ⟨moves, loading1⟩
    · exact ⟨Moves.refl, loading⟩

/-! ### The stack -/

variable {argv : List UInt64}

theorem execStrings_spec {stackbase : UInt64} {argc sp : UInt64}
    (sep : L.Owns vm (owned vm pt n)) (space : Space vm pt n) :
    wp (execStrings pt stackbase data argv argc sp)
      (fun _ vm' => Moves (owned vm pt n) (owned vm' pt n) vm vm' ∧
        Space vm' pt n) Never vm := by
  induction argv generalizing argc sp vm with
  | nil => exact ⟨Moves.refl, space⟩
  | cons _ _ ih =>
    rw [execStrings]
    split
    · exact ⟨Moves.refl, space⟩
    dsimp only
    split
    · exact ⟨Moves.refl, space⟩
    apply wp_seq (copyout_spec data sep space)
    rintro done _ ⟨moves, space1⟩
    cases done with
    | true =>
      apply wp_imp (ih (moves.separate sep) space1)
      rintro _ _ ⟨moves2, space2⟩
      exact ⟨moves.trans moves2, space2⟩
    | false => exact ⟨moves, space1⟩

theorem stack_leaf (r : UInt64) : UserLeaf (pa2pte r ||| (pteR ||| pteU ||| pteW) ||| pteV) := by
  rw [UInt64.or_assoc]
  exact userLeaf_encode r (by decide) (by decide) (by decide) (by decide)

/-- `exec` asks for two pages above the segments. -/
theorem stack_size {sz1 : UInt64} (bound : pagesOf sz ≤ 32768)
    (isSize : sz1 = if pgroundup sz + 2 * pgsize < pgroundup sz then pgroundup sz
      else pgroundup sz + 2 * pgsize) : sz1.toNat = pagesOf sz * 4096 + 8192 := by
  have round : (pgroundup sz).toNat = pagesOf sz * 4096 := by
    apply toNat_pgroundup
    rw [pagesOf] at bound
    omega
  have sum : (pgroundup sz + 2 * pgsize).toNat = pagesOf sz * 4096 + 8192 := by
    rw [UInt64.toNat_add, round]
    change (_ + 8192) % 2 ^ 64 = _
    omega
  have notLess : ¬ pgroundup sz + 2 * pgsize < pgroundup sz := by
    rw [UInt64.lt_iff_toNat_lt]
    omega
  rw [isSize, if_neg notLess, sum]

/-- The stack, whatever the arguments are. -/
theorem execStack_spec (sep : L.Owns vm (owned vm pt (pagesOf sz)))
    (loading : Loading vm pt (pagesOf sz)) :
    wp (execStack L pt argv data sz)
      (fun res vm' =>
        Moves (owned vm pt (pagesOf sz)) (owned vm' pt (pagesOf res.1)) vm vm' ∧
          Space vm' pt (pagesOf res.1)) Never vm := by
  have bound : pagesOf sz ≤ 32768 := pages_bound sep
  have round : (pgroundup sz).toNat = pagesOf sz * 4096 := by
    apply toNat_pgroundup
    rw [pagesOf] at bound
    omega
  have same : pagesOf (pgroundup sz) = pagesOf sz := by
    rw [pagesOf, round]
    omega
  rw [← same] at sep loading ⊢
  apply wp_seq (uvmalloc_spec (fun _ leaf => leaf.1) (fun _ low => notKernelPage low)
    stack_leaf (by decide) sep loading)
  intro sz1 _ grew
  split
  · rename_i isZero
    rcases grew with ⟨isSize, _⟩ | ⟨_, grew⟩
    · have total := stack_size bound isSize
      rw [isZero] at total
      change 0 = _ at total
      omega
    · exact ⟨grew.moves, grew.shape.mono (fun _ leaf => leaf.1) fun _ => Iff.rfl⟩
  rename_i notZero
  rcases grew with ⟨isSize, grew⟩ | ⟨isZero, _⟩
  · have sep1 := grew.moves.separate sep
    have total := stack_size bound isSize
    have guardPage : (sz1 - 2 * pgsize).toNat / 4096 < pagesOf sz1 := by
      have enough : 2 * pgsize ≤ sz1 := by
        rw [UInt64.le_iff_toNat_le, total]
        change 8192 ≤ _
        omega
      have twoPages : (2 * pgsize).toNat = 8192 := rfl
      have pages : pagesOf sz1 = (sz1.toNat + 4095) / 4096 := rfl
      rw [UInt64.toNat_sub_of_le _ _ enough, twoPages, pages]
      omega
    apply wp_seq (uvmclear_spec guardPage sep1
      (grew.shape.mono (fun _ leaf => leaf.1) fun _ => Iff.rfl))
    rintro _ _ ⟨moves2, space2⟩
    have sofar2 := grew.moves.trans moves2
    apply wp_seq (execStrings_spec (sofar2.separate sep) space2)
    rintro res _ ⟨moves3, space3⟩
    have sofar3 := sofar2.trans moves3
    cases res with
    | none => exact ⟨sofar3, space3⟩
    | some =>
      dsimp only
      split
      · exact ⟨sofar3, space3⟩
      apply wp_seq (copyout_spec data (sofar3.separate sep) space3)
      rintro _ _ ⟨moves4, space4⟩
      exact ⟨sofar3.trans moves4, space4⟩
  · exact (notZero isZero).elim

/-- The log operation is ended once, and an inode that was locked is unlocked and
released. -/
def Settled (events : List ExecEvent) : Prop :=
  events = [.beginOp, .endOp] ∨ events = [.beginOp, .ilock, .iunlockput, .endOp]

/-- On memory `execPrepare` does what `execImage` does. -/
theorem execImage_eq (trapframe : UInt64) (input : ExecInput) :
    execImage L trapframe input = execPrepare L trapframe input >>= fun prepared =>
      pure (prepared.1.map fun image => (image.pagetable, image.sz)) := by
  obtain ⟨file, _⟩ := input
  cases file with
  | none => rfl
  | some file =>
    simp only [execImage, execPrepare]
    by_cases short : (! file.reads 0 64) = true
    · rw [if_pos short, if_pos short]
      rfl
    by_cases magic : file.field 0 4 ≠ 0x464C457F
    · rw [if_neg short, if_neg short, if_pos magic, if_pos magic]
      rfl
    rw [if_neg short, if_neg short, if_neg magic, if_neg magic, bind_assoc]
    refine bind_congr fun table => ?_
    cases table with
    | none => rfl
    | some =>
      rw [bind_assoc]
      refine bind_congr fun ⟨sz, goesOn⟩ => ?_
      cases goesOn with
      | false =>
        dsimp only
        rw [execBad, bind_assoc]
        rfl
      | true =>
        rw [bind_assoc]
        refine bind_congr fun ⟨sz1, top⟩ => ?_
        cases top with
        | none =>
          dsimp only
          rw [execBad, bind_assoc]
          rfl
        | some => rfl

/-- `exec` makes a new address space or leaves no trace, and is done with the file
system. -/
theorem execPrepare_spec (trapframe : UInt64) (input : ExecInput) (sep : L.Owns vm 0) :
    wp (execPrepare L trapframe input)
      (fun prepared vm' => Settled prepared.2 ∧ match prepared.1 with
        | none => Moves 0 0 vm vm'
        | some image => Moves 0 (owned vm' image.pagetable (pagesOf image.sz)) vm vm' ∧
            Space vm' image.pagetable (pagesOf image.sz)) Never vm := by
  rw [execPrepare]
  split
  · exact ⟨.inl rfl, Moves.refl⟩
  split
  · exact ⟨.inr rfl, Moves.refl⟩
  split
  · exact ⟨.inr rfl, Moves.refl⟩
  apply wp_seq (procPagetable_spec (fun _ (leaf : UserLeaf _) => leaf.1) trapframe sep)
  intro made _ new
  cases made with
  | none => exact ⟨.inr rfl, new⟩
  | some =>
    obtain ⟨moves1, loading1⟩ := new
    have pages0 : pagesOf 0 = 0 := rfl
    apply wp_seq (execLoad_spec (moves1.separate sep) loading1)
    rintro ⟨_, goesOn⟩ _ ⟨moves2, loading2⟩
    have sofar2 := moves1.trans moves2
    have sep2 := sofar2.separate sep
    cases goesOn with
    | false =>
      dsimp only
      apply wp_seq (procFreepagetable_spec (fun _ leaf => leaf.1) sep2 loading2)
      intro _ vm3 freed
      exact ⟨.inr rfl, sofar2.trans freed⟩
    | true =>
      apply wp_seq (execStack_spec sep2 loading2)
      rintro ⟨_, top⟩ _ ⟨moves3, space3⟩
      have sofar3 := sofar2.trans moves3
      cases top with
      | none =>
        dsimp only
        apply wp_seq (procFreepagetable_spec (fun _ leaf => leaf) (sofar3.separate sep) space3)
        intro _ _ freed
        exact ⟨.inr rfl, sofar3.trans freed⟩
      | some => exact ⟨.inr rfl, sofar3, space3⟩

/-- The same for memory alone. -/
theorem execImage_spec (trapframe : UInt64) (input : ExecInput) (sep : L.Owns vm 0) :
    wp (execImage L trapframe input)
      (fun made vm' => match made with
        | none => Moves 0 0 vm vm'
        | some (pt, sz) => Moves 0 (owned vm' pt (pagesOf sz)) vm vm' ∧
            Space vm' pt (pagesOf sz)) Never vm := by
  rw [execImage_eq]
  apply wp_seq (execPrepare_spec trapframe input sep)
  rintro ⟨image, _⟩ _ ⟨_, made⟩
  cases image with
  | none => exact made
  | some => exact made

end CustomXv6

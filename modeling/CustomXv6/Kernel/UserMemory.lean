/-
Module: CustomXv6.Kernel.UserMemory
Purpose: The functions of kernel/vm.c on page tables of the shape a process has.
Trusted boundary: none
Main exports: Shape, uvmalloc_spec, uvmfree_spec
-/
import CustomXv6.Kernel.PageMap

namespace CustomXv6

open PageHeap RadixTree Hoare
open Function

/-- The pages `kinit` puts on the free list, which are those `kfree` accepts. -/
structure InPool (L : Layout) (pa : UInt64) : Prop where
  aligned : Aligned pa
  low : L.kend ≤ pa
  high : pa < phystop

/-- Somebody owns these pages alone, and they and the free ones can be freed. -/
abbrev Layout.Owns (L : Layout) (vm : Vm) (own : UInt64 → Nat) : Prop := Separate (InPool L) vm own

theorem InPool.accepted {L : Layout} : True → ∀ pa, InPool L pa →
    Aligned pa ∧ L.kend ≤ pa ∧ pa < phystop :=
  fun _ _ ok => ⟨ok.aligned, ok.low, ok.high⟩

/-- There are 128 MB of memory. -/
theorem length_le_of_pool {L : Layout} {pages : List UInt64} (nodup : pages.Nodup)
    (inPool : ∀ p ∈ pages, InPool L p) : pages.length ≤ 32768 := by
  have bounds : ∀ p ∈ pages, 0x80000000 ≤ p.toNat ∧ p.toNat < 0x88000000 ∧ p.toNat % 4096 = 0 := by
    intro p member
    have ok := inPool p member
    have low : 0x80000000 ≤ L.kend.toNat := UInt64.le_iff_toNat_le.mp L.kend_low
    have low' := UInt64.le_iff_toNat_le.mp ok.low
    have high : p.toNat < 0x88000000 := UInt64.lt_iff_toNat_lt.mp ok.high
    exact ⟨by omega, high, ok.aligned⟩
  have numbers : (pages.map fun p => (p.toNat - 0x80000000) / 4096).Nodup := by
    apply List.Nodup.map_on _ nodup
    intro p memberP q memberQ _
    have boundP := bounds p memberP
    have boundQ := bounds q memberQ
    rw [← UInt64.toNat_inj]
    omega
  have subset : (pages.map fun p => (p.toNat - 0x80000000) / 4096) ⊆ List.range 32768 := by
    intro k member
    obtain ⟨p, memberP, rfl⟩ := List.mem_map.mp member
    have bound := bounds p memberP
    exact List.mem_range.mpr (by omega)
  have := (List.subperm_of_subset numbers subset).length_le
  rwa [List.length_map, List.length_range] at this

/-! ### Rounding -/

/-- The number of pages that `sz` bytes take. -/
def pagesOf (sz : UInt64) : Nat := (sz.toNat + 4095) / 4096

theorem and_not_low (x : Nat) (bound : x < 2 ^ 64) : x &&& (2 ^ 64 - 4096) = x / 4096 * 4096 := by
  have mask : (2 : Nat) ^ 64 - 4096 = (2 ^ 52 - 1) <<< 12 := by decide
  have shift : x / 4096 * 4096 = (x >>> 12) <<< 12 := by
    rw [Nat.shiftLeft_eq, Nat.shiftRight_eq_div_pow]
  rw [mask, shift]
  apply Nat.eq_of_testBit_eq
  intro i
  rw [Nat.testBit_and, Nat.testBit_shiftLeft, Nat.testBit_shiftLeft, Nat.testBit_two_pow_sub_one,
    Nat.testBit_shiftRight]
  by_cases low : 12 ≤ i
  · have sum : 12 + (i - 12) = i := by omega
    by_cases high : i < 64
    · have lt : i - 12 < 52 := by omega
      simp only [ge_iff_le, low, decide_true, Bool.true_and, lt, sum, Bool.and_true]
    have out : ¬ i - 12 < 52 := by omega
    have zero : x.testBit i = false :=
      Nat.testBit_lt_two_pow (Nat.lt_of_lt_of_le bound (Nat.pow_le_pow_right (by decide) (by omega)))
    simp only [ge_iff_le, low, decide_true, Bool.true_and, sum, zero, Bool.false_and]
  · simp only [ge_iff_le, low, decide_false, Bool.false_and, Bool.and_false]

theorem toNat_pgrounddown (a : UInt64) : (pgrounddown a).toNat = a.toNat / 4096 * 4096 := by
  exact and_not_low a.toNat a.toNat_lt

theorem toNat_pgroundup {sz : UInt64} (small : sz.toNat < 2 ^ 63) :
    (pgroundup sz).toNat = pagesOf sz * 4096 := by
  have sum : (sz + pgsize - 1).toNat = sz.toNat + 4095 := by
    change (2 ^ 64 - 1 + (sz.toNat + 4096) % 2 ^ 64) % 2 ^ 64 = _
    omega
  change (pgrounddown (sz + pgsize - 1)).toNat = _
  rw [toNat_pgrounddown, sum, pagesOf]

theorem throughInt_small {x : UInt64} (small : x.toNat < 2 ^ 31) : throughInt x = x := by
  have low : x &&& 0xFFFFFFFF = x := by
    rw [← UInt64.toNat_inj, UInt64.toNat_and]
    have := Nat.and_two_pow_sub_one_eq_mod x.toNat 32
    rw [Nat.mod_eq_of_lt (by omega)] at this
    exact this
  rw [throughInt, low]
  exact if_pos (UInt64.lt_iff_toNat_lt.mpr small)

/-! ### The shape of a process's page table -/

/-- An entry that maps a page: valid, and readable, writable or executable. -/
def Leaf (pte : UInt64) : Prop := pte &&& pteV ≠ 0 ∧ pte &&& (pteR ||| pteW ||| pteX) ≠ 0

theorem Leaf.flags {pte : UInt64} (leaf : Leaf pte) : pteFlags pte ≠ pteV := by
  intro only
  apply leaf.2
  rw [and_flag (by decide), only]
  decide

/-- A leaf that user code cannot use. -/
def KernelLeaf (pte : UInt64) : Prop := Leaf pte ∧ pte &&& pteU = 0

/-- The entries of `n` user pages are as they should be, the pages in `kernel`
are mapped, and nothing else is. -/
structure Shape (vm : Vm) (pt : UInt64) (good : UInt64 → Prop) (kernel : Nat → Prop)
    (n : Nat) : Prop where
  inner : sv39.Inner Pointer vm.mem 2 pt
  user : ∀ v < n, good (vm.entry pt v)
  fixed : ∀ v < 2 ^ 27, n ≤ v → kernel v → KernelLeaf (vm.entry pt v)
  blank : ∀ v < 2 ^ 27, n ≤ v → ¬ kernel v → vm.entry pt v = 0

theorem Shape.congr {vm vm' : Vm} {pt : UInt64} {good : UInt64 → Prop}
    {kernel : Nat → Prop} {n : Nat} (shape : Shape vm pt good kernel n) (small : n ≤ 2 ^ 27)
    (inner : sv39.Inner Pointer vm'.mem 2 pt)
    (same : ∀ v < 2 ^ 27, vm'.entry pt v = vm.entry pt v) :
    Shape vm' pt good kernel n := by
  constructor
  · exact inner
  · intro v lt
    rw [same v (by omega)]
    exact shape.user v lt
  · intro v small above isKernel
    rw [same v small]
    exact shape.fixed v small above isKernel
  · intro v small above notHere
    rw [same v small]
    exact shape.blank v small above notHere

/-- The pages a page table with `n` user pages owns: the user pages and its own. -/
def owned (vm : Vm) (pt : UInt64) (n : Nat) : UInt64 → Nat :=
  tally (freedPages (vm.entry pt) true 0 n) + tally (vm.tablePages pt)

/-- The pages a process's page table maps for the kernel. -/
def KernelPage (v : Nat) : Prop := v = 2 ^ 26 - 1 ∨ v = 2 ^ 26 - 2

/-! ### mappages for one page -/

variable {L : Layout} {vm vm' : Vm} {good : UInt64 → Prop} {kernel : Nat → Prop}
  {pt va pa perm : UInt64} {n : Nat} {fail : VmPanic → Prop}

/-- `mappages` of one page maps it, or there was no memory and no entry changes. -/
theorem mappages_page (sep : L.Owns vm (tally (vm.tablePages pt)))
    (inner : sv39.Inner Pointer vm.mem 2 pt) (aligned : Aligned va) (lt : va < maxva)
    (free : vm.entry pt (va.toNat / 4096) = 0) :
    wp (mappages pt va pgsize pa perm)
      (fun done vm' => TableStep pt
        (fun v => if done ∧ v = va.toNat / 4096 then pa2pte pa ||| perm ||| pteV
          else vm.entry pt v) vm vm') fail vm := by
  have rounds : pgsize.toNat / 4096 = 0 + 1 := rfl
  rw [mappages, if_neg (not_not.mpr (aligned_iff.mpr aligned)), if_neg (by decide),
    if_neg (by decide), rounds, mappagesLoop, wp_bind]
  apply wp_imp (walk_spec (fun _ ok => ok.aligned) sep inner lt)
  intro found vm1 grown
  cases found with
  | none =>
    apply grown.step.congr
    intro v _
    rw [if_neg (fun both => by cases both.1)]
  | some ptr =>
    obtain ⟨place, index⟩ := grown.place ptr rfl
    have word : vm1.mem ptr.1 ptr.2 = 0 := by
      rw [load_entry ptr place index, ← free]
      exact grown.entry _
    have last : va + pgsize - pgsize = va := by
      rw [UInt64.add_sub_cancel]
    simp only [wp_bind, wp_loadPte, word]
    rw [if_neg (by decide), wp_bind, wp_storePte, if_pos last.symm]
    apply (grown.step.trans (store_entry ptr (grown.moves.separate sep) grown.inner lt place
      index (pa2pte pa ||| perm ||| pteV))).congr
    intro v _
    by_cases here : v = va.toNat / 4096
    · rw [if_pos here, if_pos ⟨rfl, here⟩]
    · rw [if_neg here, if_neg (fun both => here both.2)]
      exact grown.entry v

/-! ### uvmdealloc -/

theorem freedPages_append (entries : Nat → UInt64) (first n m : Nat) :
    freedPages entries true first (n + m) =
      freedPages entries true first n ++ freedPages entries true (first + n) m := by
  change (List.range' first (n + m)).map _ =
    (List.range' first n).map _ ++ (List.range' (first + n) m).map _
  rw [← List.map_append, List.range'_append_1]

variable {m : Nat}

/-- The user pages are the same if their entries are. -/
theorem freedPages_below {entries entries' : Nat → UInt64}
    (same : ∀ v < n, entries v = entries' v) :
    freedPages entries true 0 n = freedPages entries' true 0 n := by
  apply freedPages_congr
  intro v _ _
  exact same v (by omega)

/-- The user pages are distinct pages of memory, so there are not many of them. -/
theorem pages_bound {rest : UInt64 → Nat}
    (sep : L.Owns vm (tally (freedPages (vm.entry pt) true 0 n) + rest)) :
    n ≤ 32768 := by
  have length : (freedPages (vm.entry pt) true 0 n).length = n := by
    rw [freedPages, if_pos rfl, List.length_map, List.length_range']
  rw [← length]
  apply length_le_of_pool sep.left.nodup
  intro p member
  exact sep.left.good p (Nat.add_pos_right _ (tally_pos.mpr member))

variable {npages oldsz newsz : UInt64}

/-- `uvmunmap` with `do_free` of the leaves from `m` up to `n`. -/
theorem unmapLeaves_spec (order : m ≤ n) (bound : n ≤ 32768)
    (sep : L.Owns vm (tally (freedPages (vm.entry pt) true m (n - m)) +
      tally (vm.tablePages pt))) (inner : sv39.Inner Pointer vm.mem 2 pt)
    (leaves : ∀ v, m ≤ v → v < n → Leaf (vm.entry pt v))
    (start : va.toNat = m * 4096) (count : npages.toNat = n - m) :
    wp (uvmunmap L pt va npages true)
      (fun _ vm' => Unmapped pt true m (n - m) vm vm') Never vm := by
  have first : va.toNat / 4096 = m := by omega
  rw [← count, ← first] at sep ⊢
  apply wp_mono (uvmunmap_spec True InPool.accepted sep inner (fun _ => by
      rw [Aligned]
      omega) (by
      change _ ≤ 0x4000000000
      omega) (fun _ v low high => by
      have leaf := leaves v (by omega) (by omega)
      exact ⟨leaf.1, leaf.flags⟩))
  · exact fun _ _ unmapped => unmapped
  · intro e absurd
    exact absurd trivial

/-- `uvmunmap` with `do_free` of the user pages from `m` on. -/
theorem shrink_spec (leafOfGood : ∀ pte, good pte → Leaf pte) (order : m ≤ n)
    (sep : L.Owns vm (owned vm pt n))
    (shape : Shape vm pt good kernel n) (notKernel : ∀ v, v < n → ¬ kernel v)
    (start : va.toNat = m * 4096) (count : npages.toNat = n - m) :
    wp (uvmunmap L pt va npages true)
      (fun _ vm' => Moves (owned vm pt n) (owned vm' pt m) vm vm' ∧
        Shape vm' pt good kernel m) Never vm := by
  have bound : n ≤ 32768 := pages_bound sep
  have split : owned vm pt n = tally (freedPages (vm.entry pt) true 0 m) +
      (tally (freedPages (vm.entry pt) true m (n - m)) +
        tally (vm.tablePages pt)) := by
    have all : m + (n - m) = n := by omega
    rw [owned, ← all, freedPages_append, Nat.zero_add, all, tally_append, add_assoc]
  have part := sep
  rw [split] at part
  apply wp_imp (unmapLeaves_spec order bound part.right shape.inner
    (fun v _ high => leafOfGood _ (shape.user v high)) start count)
  intro _ vm' unmapped
  have kept : freedPages (vm'.entry pt) true 0 m =
      freedPages (vm.entry pt) true 0 m := by
    apply freedPages_below
    intro v lt
    rw [unmapped.entry v (by omega), if_neg (by omega)]
  constructor
  · rw [split, owned, kept]
    exact unmapped.moves.add_left _
  constructor
  · exact unmapped.inner
  · intro v lt
    rw [unmapped.entry v (by omega), if_neg (by omega)]
    exact shape.user v (by omega)
  · intro v small above isKernel
    have out : ¬ v < n := fun lt => notKernel v lt isKernel
    rw [unmapped.entry v small, if_neg (by omega)]
    exact shape.fixed v small (by omega) isKernel
  intro v small _ notHere
  rw [unmapped.entry v small]
  split
  · rfl
  · exact shape.blank v small (by omega) notHere

/-- `uvmdealloc` leaves the memory alone, or unmaps the pages above the new size. -/
theorem wp_uvmdealloc {post : UInt64 → Vm → Prop}
    (bound : pagesOf oldsz ≤ 32768) (notLess : oldsz ≤ newsz → post oldsz vm)
    (same : newsz < oldsz → pagesOf newsz = pagesOf oldsz → post newsz vm)
    (fewer : newsz < oldsz → ∀ va npages : UInt64, va.toNat = pagesOf newsz * 4096 →
      npages.toNat = pagesOf oldsz - pagesOf newsz → pagesOf newsz ≤ pagesOf oldsz →
      wp (uvmunmap L pt va npages true) (fun _ vm' => post newsz vm') fail vm) :
    wp (uvmdealloc L pt oldsz newsz) post fail vm := by
  have small : oldsz.toNat < 2 ^ 63 := by
    rw [pagesOf] at bound
    omega
  rw [uvmdealloc]
  split
  · rename_i le
    exact notLess le
  rename_i less
  rw [UInt64.not_le] at less
  have lessNat := UInt64.lt_iff_toNat_lt.mp less
  have roundOld := toNat_pgroundup small
  have roundNew : (pgroundup newsz).toNat = pagesOf newsz * 4096 := toNat_pgroundup (by omega)
  have order : pagesOf newsz ≤ pagesOf oldsz := by
    rw [pagesOf, pagesOf]
    omega
  split
  · rename_i fewerPages
    have length : (pgroundup oldsz - pgroundup newsz).toNat =
        (pagesOf oldsz - pagesOf newsz) * 4096 := by
      rw [UInt64.toNat_sub_of_le _ _ (UInt64.le_of_lt fewerPages), roundOld, roundNew, Nat.sub_mul]
    have count : ((pgroundup oldsz - pgroundup newsz) / pgsize).toNat =
        pagesOf oldsz - pagesOf newsz := by
      rw [UInt64.toNat_div, length]
      exact Nat.mul_div_cancel _ (by decide)
    rw [throughInt_small (by omega), wp_bind]
    exact fewer less _ _ roundNew count order
  · rename_i notFewer
    rw [UInt64.not_lt, UInt64.le_iff_toNat_le] at notFewer
    exact same less (by omega)

/-- `uvmdealloc`. -/
theorem uvmdealloc_spec (leafOfGood : ∀ pte, good pte → Leaf pte)
    (sep : L.Owns vm (owned vm pt (pagesOf oldsz)))
    (shape : Shape vm pt good kernel (pagesOf oldsz))
    (notKernel : ∀ v, v < pagesOf oldsz → ¬ kernel v) :
    wp (uvmdealloc L pt oldsz newsz)
      (fun sz vm' => sz = (if oldsz ≤ newsz then oldsz else newsz) ∧
        Moves (owned vm pt (pagesOf oldsz)) (owned vm' pt (pagesOf sz)) vm vm' ∧
        Shape vm' pt good kernel (pagesOf sz)) Never vm := by
  apply wp_uvmdealloc (pages_bound sep)
  · intro le
    exact ⟨(if_pos le).symm, Moves.refl, shape⟩
  · intro less same
    rw [same]
    exact ⟨(if_neg (UInt64.not_le.mpr less)).symm, Moves.refl, shape⟩
  intro less _ _ start count order
  apply wp_imp (shrink_spec leafOfGood order sep shape notKernel start count)
  intro _ _ shrunk
  exact ⟨(if_neg (UInt64.not_le.mpr less)).symm, shrunk⟩

/-! ### One more page -/

variable {r : UInt64} {k : Nat} {own own' rest : UInt64 → Nat}

/-- A page table is what it was after code that does not own its pages. -/
theorem owned_kept (moves : Moves own own' vm vm') (sep : L.Owns vm (own + owned vm pt n)) :
    owned vm' pt n = owned vm pt n ∧
      (Shape vm pt good kernel n → Shape vm' pt good kernel n) := by
  have bound : n ≤ 32768 := pages_bound sep.right
  have apart : L.Owns vm (own + tally (vm.tablePages pt)) := by
    rw [owned, ← add_assoc, add_right_comm] at sep
    exact sep.left
  obtain ⟨same, entries⟩ := table_kept moves apart
  have freed : freedPages (vm'.entry pt) true 0 n =
      freedPages (vm.entry pt) true 0 n := freedPages_congr fun v _ _ => entries v
  constructor
  · rw [owned, owned, freed, tablePages_of_same same]
  · intro shape
    exact shape.congr (by omega) (same.inner Pointer shape.inner) fun v _ => entries v

variable {left : List UInt64}

/-- `kalloc` and the `memset` or `memmove` that fills the page. -/
theorem takePage_moves (free : vm.freelist = r :: left) (words : Nat → UInt64) :
    Moves 0 (tally [r]) vm ⟨left, update (takePage vm r left).mem r words⟩ := by
  rw [← zero_add (tally [r])]
  apply Moves.alloc free rfl
  intro p ne
  change update _ r _ p = _
  rw [update_of_ne ne, takePage_mem_of_ne ne]

/-- A page of the pool that is owned is freed. -/
theorem kfree_owned {page : UInt64} (sep : L.Owns vm (tally [page])) :
    wp (kfree L page) (fun _ vm' => Moves (tally [page]) 0 vm vm') fail vm := by
  have inPool : InPool L page := by
    apply sep.good page
    have := tally_self page
    omega
  apply wp_kfree
  · intro refused
    exact (refused ⟨inPool.aligned, inPool.low, inPool.high⟩).elim
  · exact kfree_moves vm page

/-- The user pages of a table from `n` up to `k` are new, with the flags and the
contents asked for; its other entries are those it had in `vm`, and pages that were
neither free nor its own have not been written.  `held` are pages taken from the
allocator and not mapped yet. -/
structure Extends (pt : UInt64) (perm : Nat → UInt64) (words : Nat → Nat → UInt64) (vm : Vm)
    (n k : Nat) (held : UInt64 → Nat) (vm' : Vm) : Prop where
  moves : Moves (tally (vm.tablePages pt))
    (held + (tally (freedPages (vm'.entry pt) true n (k - n)) +
      tally (vm'.tablePages pt))) vm vm'
  inner : sv39.Inner Pointer vm'.mem 2 pt
  other : ∀ v < 2 ^ 27, ¬ (n ≤ v ∧ v < k) → vm'.entry pt v = vm.entry pt v
  new : ∀ v, n ≤ v → v < k → ∃ r, vm'.entry pt v = pa2pte r ||| perm v ||| pteV ∧
    pte2pa (vm'.entry pt v) = r ∧ vm'.mem r = words v

namespace Extends

variable {perm : Nat → UInt64} {words : Nat → Nat → UInt64} {held : UInt64 → Nat} {vm'' : Vm}

theorem refl (inner : sv39.Inner Pointer vm.mem 2 pt) : Extends pt perm words vm n n 0 vm := by
  refine ⟨?_, inner, fun _ _ _ => rfl, fun v low high => by omega⟩
  rw [Nat.sub_self, zero_add]
  change Moves _ (0 + _) vm vm
  rw [zero_add]
  exact Moves.refl

variable (ext : Extends pt perm words vm n k held vm')
include ext

/-- The table with its user pages goes from `n` to `k` of them. -/
theorem owned (order : n ≤ k) (small : n ≤ 2 ^ 27) :
    Moves (owned vm pt n) (held + owned vm' pt k) vm vm' := by
  have below : freedPages (vm'.entry pt) true 0 n = freedPages (vm.entry pt) true 0 n :=
    freedPages_below fun v lt => ext.other v (by omega) (by omega)
  have moved := ext.moves.add_left (tally (freedPages (vm.entry pt) true 0 n))
  have all : n + (k - n) = k := by omega
  rw [CustomXv6.owned, CustomXv6.owned, ← all, freedPages_append, below, Nat.zero_add,
    tally_append, add_assoc, add_left_comm held]
  exact moved

/-- All its pages are pages of memory, so there are not many. -/
theorem bound (sep : L.Owns vm (CustomXv6.owned vm pt n)) (order : n ≤ k) : k ≤ 32768 := by
  have small : n ≤ 32768 := pages_bound sep
  exact pages_bound ((ext.owned order (by omega)).separate sep).right

theorem shape (shape : Shape vm pt good kernel n) (order : n ≤ k) (small : k ≤ 32768)
    (isGood : ∀ v < k, ∀ r, good (pa2pte r ||| perm v ||| pteV)) :
    Shape vm' pt good kernel k := by
  constructor
  · exact ext.inner
  · intro v lt
    by_cases old : v < n
    · rw [ext.other v (by omega) (by omega)]
      exact shape.user v old
    obtain ⟨r, entry, _⟩ := ext.new v (by omega) lt
    rw [entry]
    exact isGood v lt r
  · intro v high above isKernel
    rw [ext.other v high (by omega)]
    exact shape.fixed v high (by omega) isKernel
  · intro v high _ notHere
    rw [ext.other v high (by omega)]
    exact shape.blank v high (by omega) notHere

variable (sep : L.Owns vm (tally (vm.tablePages pt)))
include sep

/-- Code beside the table changes what is held. -/
theorem beside {held' : UInt64 → Nat} (moves : Moves held held' vm' vm'') :
    Extends pt perm words vm n k held' vm'' := by
  have all := ext.moves.separate sep
  have apart := all
  rw [add_left_comm] at apart
  obtain ⟨same, entries⟩ := table_kept moves apart.right
  have freed : freedPages (vm''.entry pt) true n (k - n) =
      freedPages (vm'.entry pt) true n (k - n) := freedPages_congr fun v _ _ => entries v
  constructor
  · rw [freed, tablePages_of_same same]
    exact ext.moves.trans (moves.add _)
  · exact same.inner Pointer ext.inner
  · intro v small out
    rw [entries, ext.other v small out]
  intro v low high
  obtain ⟨r, entry, target, contents⟩ := ext.new v low high
  refine ⟨r, (entries v).trans entry, (congrArg pte2pa (entries v)).trans target, ?_⟩
  rw [moves.kept all, contents]
  have member : r ∈ freedPages (vm'.entry pt) true n (k - n) :=
    List.mem_map.mpr ⟨v, List.mem_range'_1.mpr ⟨low, by omega⟩, target⟩
  exact Nat.add_pos_left (tally_pos.mpr member) _

omit ext in
/-- A page that is held and filled is mapped next. -/
theorem map
    (ext : Extends pt perm words vm n k (tally [r]) vm') (filled : vm'.mem r = words k)
    (order : n ≤ k) (small : k ≤ 32768) (blank : vm.entry pt k = 0)
    (bits : (perm k ||| pteV).toNat < 1024) (start : va.toNat = k * 4096) :
    wp (mappages pt va pgsize r (perm k))
      (fun done vm'' => if done then Extends pt perm words vm n (k + 1) 0 vm'' ∧
          pte2pa (vm''.entry pt k) = r
        else Extends pt perm words vm n k (tally [r]) vm'') fail vm' := by
  have page : va.toNat / 4096 = k := by omega
  have lt : va < maxva := by
    rw [UInt64.lt_iff_toNat_lt]
    change _ < 0x4000000000
    omega
  have aligned : Aligned va := by
    rw [Aligned]
    omega
  have all := ext.moves.separate sep
  have whole : Aligned r := (all.left.good r (by have := tally_self r; omega)).aligned
  rw [← add_assoc] at all
  have unmapped : vm'.entry pt (va.toNat / 4096) = 0 := by
    rw [page, ext.other k (by omega) (by omega), blank]
  apply wp_imp (mappages_page all.right ext.inner aligned lt unmapped)
  intro done vm'' step
  rw [page] at step
  have below : ∀ v < k, vm''.entry pt v = vm'.entry pt v := by
    intro v _
    rw [step.entry v (by omega), if_neg (by omega)]
  have freed : freedPages (vm''.entry pt) true n (k - n) =
      freedPages (vm'.entry pt) true n (k - n) :=
    freedPages_congr fun v _ high => below v (by omega)
  have moved := ext.moves
  rw [← add_assoc] at moved
  have moved := moved.trans (step.moves.add_left _)
  -- The page that is held and the pages mapped before belong to the surroundings.
  rw [add_comm] at all
  have old : ∀ v, n ≤ v → v < k → ∃ r, vm''.entry pt v = pa2pte r ||| perm v ||| pteV ∧
      pte2pa (vm''.entry pt v) = r ∧ vm''.mem r = words v := by
    intro v low high
    obtain ⟨r, entry, target, contents⟩ := ext.new v low high
    rw [below v high]
    refine ⟨r, entry, target, ?_⟩
    rw [step.moves.kept all, contents]
    have member : r ∈ freedPages (vm'.entry pt) true n (k - n) :=
      List.mem_map.mpr ⟨v, List.mem_range'_1.mpr ⟨low, by omega⟩, target⟩
    exact Nat.add_pos_right _ (tally_pos.mpr member)
  cases done with
  | true =>
    have here : vm''.entry pt k = pa2pte r ||| perm k ||| pteV := by
      rw [step.entry k (by omega), if_pos ⟨rfl, rfl⟩]
    have target : pte2pa (vm''.entry pt k) = r := by
      rw [here, UInt64.or_assoc, pte2pa_encode whole bits]
    have contents : vm''.mem r = words k := by
      rw [step.moves.kept all, filled]
      exact Nat.add_pos_left (by have := tally_self r; omega) _
    have last : freedPages (vm''.entry pt) true n (k + 1 - n) =
        freedPages (vm'.entry pt) true n (k - n) ++ [r] := by
      have more : k + 1 - n = k - n + 1 := by omega
      have next : n + (k - n) = k := by omega
      rw [more, freedPages_append, freed, next]
      change _ ++ [pte2pa (vm''.entry pt k)] = _
      rw [target]
    refine ⟨⟨?_, step.inner, ?_, ?_⟩, target⟩
    · rw [last, tally_append, zero_add, add_comm (tally (freedPages _ true n (k - n)))]
      exact moved
    · intro v small' out
      rw [step.entry v small', if_neg (by omega), ext.other v small' (by omega)]
    intro v low _
    by_cases isNew : v = k
    · subst isNew
      exact ⟨r, here, target, contents⟩
    · exact old v low (by omega)
  | false =>
    refine ⟨?_, step.inner, ?_, old⟩
    · rw [freed, ← add_assoc]
      exact moved
    · intro v small' out
      rw [step.entry v small', if_neg (fun both => by cases both.1), ext.other v small' out]

omit ext in
/-- A page that is held is given back. -/
theorem kfree (ext : Extends pt perm words vm n k (tally [r]) vm') :
    wp (kfree L r) (fun _ vm'' => Extends pt perm words vm n k 0 vm'') fail vm' := by
  apply wp_imp (kfree_owned (ext.moves.separate sep).left)
  intro _ _ freed
  exact ext.beside sep freed

omit ext in
/-- The new pages are unmapped and given back. -/
theorem undo (ext : Extends pt perm words vm n k 0 vm')
    (order : n ≤ k) (small : k ≤ 32768) (blank : ∀ v, n ≤ v → v < k → vm.entry pt v = 0)
    (isLeaf : ∀ v < k, ∀ r, Leaf (pa2pte r ||| perm v ||| pteV)) (start : va.toNat = n * 4096)
    (count : npages.toNat = k - n) :
    wp (uvmunmap L pt va npages true)
      (fun _ vm'' => Extends pt perm words vm n n 0 vm'') Never vm' := by
  have moves := ext.moves
  rw [zero_add] at moves
  apply wp_imp (unmapLeaves_spec order small (moves.separate sep) ext.inner (fun v low high => by
    obtain ⟨r, entry, _⟩ := ext.new v low high
    rw [entry]
    exact isLeaf v high r) start count)
  intro _ vm'' unmapped
  refine ⟨?_, unmapped.inner, ?_, fun v low high => by omega⟩
  · rw [Nat.sub_self, zero_add]
    change Moves _ (0 + _) vm vm''
    rw [zero_add]
    exact moves.trans unmapped.moves
  intro v small' _
  rw [unmapped.entry v small']
  split
  · rw [blank v (by omega) (by omega)]
  · exact ext.other v small' (by omega)

end Extends

/-! ### uvmalloc -/

/-- How `uvmalloc` ends: with the memory it was asked for or with what there was. -/
structure Grew (pt : UInt64) (good : UInt64 → Prop) (kernel : Nat → Prop) (vm : Vm)
    (pre after : Nat) (vm' : Vm) : Prop where
  moves : Moves (owned vm pt pre) (owned vm' pt after) vm vm'
  shape : Shape vm' pt good kernel after

variable {xperm : UInt64}

/-- What `uvmalloc` does to a table: its new pages hold zeros. -/
abbrev Zeroed (pt xperm : UInt64) (vm : Vm) (n k : Nat) (vm' : Vm) : Prop :=
  Extends pt (fun _ => pteR ||| pteU ||| xperm) (fun _ _ => 0) vm n k 0 vm'

section

variable (sep : L.Owns vm (owned vm pt n))
  (blank : ∀ v, n ≤ v → v ≤ 32768 → vm.entry pt v = 0)
  (isLeaf : ∀ r, Leaf (pa2pte r ||| (pteR ||| pteU ||| xperm) ||| pteV))
include sep blank isLeaf

/-- The failure paths of `uvmalloc` give back the pages mapped so far. -/
theorem giveBack_spec {base a : UInt64} (ext : Zeroed pt xperm vm n k vm')
    (here : a.toNat = k * 4096) (start : base.toNat = n * 4096) (order : n ≤ k) :
    wp (do
        let _ ← uvmdealloc L pt a base
        pure (0 : UInt64))
      (fun r vm'' => r = 0 ∧ Zeroed pt xperm vm n n vm'') Never vm' := by
  have bound : k ≤ 32768 := ext.bound sep order
  have pages : pagesOf a = k := by
    rw [pagesOf]
    omega
  have pages0 : pagesOf base = n := by
    rw [pagesOf]
    omega
  rw [wp_bind]
  apply wp_uvmdealloc (by omega)
  · intro le
    rw [UInt64.le_iff_toNat_le] at le
    obtain rfl : k = n := by omega
    exact ⟨rfl, ext⟩
  · intro _ _
    obtain rfl : k = n := by omega
    exact ⟨rfl, ext⟩
  intro _ _ _ first count _
  rw [pages, pages0] at count
  rw [pages0] at first
  apply wp_imp (ext.undo sep.right order bound (fun v low high => blank v low (by omega))
    (fun _ _ => isLeaf) first count)
  exact fun _ vm'' undone => ⟨rfl, undone⟩

/-- The loop of `uvmalloc`, by induction on the rounds left; `k` pages are mapped
when it looks at `a`. -/
theorem uvmallocLoop_spec (bits : (pteR ||| pteU ||| xperm ||| pteV).toNat < 1024)
    {base : UInt64} (start : base.toNat = n * 4096) {rounds : Nat} {a : UInt64}
    (ext : Zeroed pt xperm vm n k vm') (here : a.toNat = k * 4096) (order : n ≤ k)
    (enough : newsz.toNat < a.toNat + rounds * 4096) (needed : k ≤ pagesOf newsz) :
    wp (uvmallocLoop L pt base newsz xperm rounds a)
      (fun r vm'' => (r = newsz ∧ Zeroed pt xperm vm n (pagesOf newsz) vm'') ∨
        (r = 0 ∧ Zeroed pt xperm vm n n vm'')) Never vm' := by
  induction rounds generalizing a k vm' with
  | zero =>
    have run : ¬ a < newsz := by
      rw [UInt64.lt_iff_toNat_lt]
      omega
    obtain rfl : k = pagesOf newsz := by
      rw [pagesOf] at needed ⊢
      omega
    rw [uvmallocLoop, if_neg run]
    exact .inl ⟨rfl, ext⟩
  | succ rounds ih =>
    rw [uvmallocLoop]
    split
    · rename_i more
      rw [UInt64.lt_iff_toNat_lt] at more
      have bound : k ≤ 32768 := ext.bound sep order
      rw [wp_bind]
      apply wp_kalloc
      · intro _
        apply wp_imp (giveBack_spec sep blank isLeaf ext here start order)
        exact fun r _ failed => .inr failed
      intro r left free
      have taken := ext.beside sep.right (takePage_moves free fun _ => 0)
      rw [wp_bind, wp_fill]
      apply wp_seq (taken.map sep.right (update_self _ _ _) order bound
        (blank k order bound) bits here)
      intro done vm2 mapped
      cases done with
      | true =>
        have next : (a + pgsize).toNat = (k + 1) * 4096 := by
          change (a.toNat + 4096) % 2 ^ 64 = _
          omega
        have needed2 : k + 1 ≤ pagesOf newsz := by
          rw [pagesOf]
          omega
        exact ih mapped.1 next (by omega) (by omega) needed2
      | false =>
        apply wp_seq (Extends.kfree sep.right mapped)
        intro _ vm3 freed
        apply wp_imp (giveBack_spec sep blank isLeaf freed here start order)
        exact fun r _ failed => .inr failed
    rename_i run
    obtain rfl : k = pagesOf newsz := by
      rw [UInt64.lt_iff_toNat_lt] at run
      rw [pagesOf] at needed ⊢
      omega
    exact .inl ⟨rfl, ext⟩

end

/-- `uvmalloc` of a larger size maps pages of zeros up to it, or changes nothing. -/
theorem uvmalloc_exact (sep : L.Owns vm (owned vm pt (pagesOf oldsz)))
    (inner : sv39.Inner Pointer vm.mem 2 pt)
    (blank : ∀ v, pagesOf oldsz ≤ v → v ≤ 32768 → vm.entry pt v = 0)
    (isLeaf : ∀ r, Leaf (pa2pte r ||| (pteR ||| pteU ||| xperm) ||| pteV))
    (bits : (pteR ||| pteU ||| xperm ||| pteV).toNat < 1024) (notLess : oldsz ≤ newsz) :
    wp (uvmalloc L pt oldsz newsz xperm)
      (fun r vm' => (r = newsz ∧ Zeroed pt xperm vm (pagesOf oldsz) (pagesOf newsz) vm') ∨
        (r = 0 ∧ Zeroed pt xperm vm (pagesOf oldsz) (pagesOf oldsz) vm'))
      Never vm := by
  have bound : pagesOf oldsz ≤ 32768 := pages_bound sep
  rw [uvmalloc, if_neg (UInt64.not_lt.mpr notLess)]
  rw [UInt64.le_iff_toNat_le] at notLess
  have base : (pgroundup oldsz).toNat = pagesOf oldsz * 4096 := by
    apply toNat_pgroundup
    rw [pagesOf] at bound
    omega
  have needed : pagesOf oldsz ≤ pagesOf newsz := by
    rw [pagesOf, pagesOf]
    omega
  exact uvmallocLoop_spec sep blank isLeaf bits base (Extends.refl inner) base le_rfl
    (by omega) needed

/-- `uvmalloc` returns 0 where nothing changed: also for a request that ends at 0. -/
theorem pagesOf_failed (isZero : r = 0)
    (isSize : r = if newsz < oldsz then oldsz else newsz) : pagesOf r = pagesOf oldsz := by
  rw [isZero] at isSize ⊢
  split at isSize
  · rw [isSize]
  rename_i notLess
  rw [UInt64.not_lt, ← isSize, UInt64.le_iff_toNat_le] at notLess
  have zero : oldsz.toNat = 0 := Nat.le_zero.mp notLess
  rw [pagesOf, pagesOf, zero]
  rfl

/-- `uvmalloc`. -/
theorem uvmalloc_spec (leafOfGood : ∀ pte, good pte → Leaf pte)
    (notKernel : ∀ v ≤ 32768, ¬ kernel v)
    (isGood : ∀ r, good (pa2pte r ||| (pteR ||| pteU ||| xperm) ||| pteV))
    (bits : (pteR ||| pteU ||| xperm ||| pteV).toNat < 1024)
    (sep : L.Owns vm (owned vm pt (pagesOf oldsz)))
    (shape : Shape vm pt good kernel (pagesOf oldsz)) :
    wp (uvmalloc L pt oldsz newsz xperm)
      (fun r vm' =>
        (r = (if newsz < oldsz then oldsz else newsz) ∧
          Grew pt good kernel vm (pagesOf oldsz) (pagesOf r) vm') ∨
        (r = 0 ∧ Grew pt good kernel vm (pagesOf oldsz) (pagesOf oldsz) vm'))
      Never vm := by
  have bound : pagesOf oldsz ≤ 32768 := pages_bound sep
  have grew : ∀ {k vm'}, Zeroed pt xperm vm (pagesOf oldsz) k vm' → pagesOf oldsz ≤ k →
      Grew pt good kernel vm (pagesOf oldsz) k vm' := by
    intro k vm' zeroed order
    have moves := zeroed.owned order (by omega)
    rw [zero_add] at moves
    exact ⟨moves, zeroed.shape shape order (zeroed.bound sep order) fun _ _ => isGood⟩
  by_cases less : newsz < oldsz
  · rw [uvmalloc, if_pos less, if_pos less]
    exact .inl ⟨rfl, Moves.refl, shape⟩
  rw [if_neg less]
  have notLess := UInt64.not_lt.mp less
  apply wp_imp (uvmalloc_exact sep shape.inner
    (fun v low high => shape.blank v (by omega) low (notKernel v high))
    (fun r => leafOfGood _ (isGood r)) bits notLess)
  rw [UInt64.le_iff_toNat_le] at notLess
  rintro r _ (⟨rfl, zeroed⟩ | ⟨isZero, zeroed⟩)
  · exact .inl ⟨rfl, grew zeroed (by rw [pagesOf, pagesOf]; omega)⟩
  · exact .inr ⟨isZero, grew zeroed le_rfl⟩

/-! ### freewalk -/

variable {level : Nat} {page : UInt64}

/-- The loop of `freewalk`: the trees below the words from `k` on are still there. -/
structure FreeingTable (level : Nat) (page : UInt64) (vm : Vm) (k : Nat) (now : Vm) : Prop where
  moves : Moves (tally (sv39.pages vm.mem (level + 1) page))
    (tally [page] + tally ((List.range' k (512 - k)).flatMap (sv39.below vm.mem level page))) vm now
  words : ∀ j, k ≤ j → now.mem page j = vm.mem page j
  trees : ∀ j, k ≤ j → j < 512 → ∀ p ∈ sv39.below vm.mem level page j, now.mem p = vm.mem p

theorem FreeingTable.start (level : Nat) (page : UInt64) (vm : Vm) : FreeingTable level page vm 0 vm := by
  constructor
  · have all : sv39.pages vm.mem (level + 1) page =
        page :: (List.range' 0 512).flatMap (sv39.below vm.mem level page) := by
      rw [Format.pages_succ, List.range_eq_range']
      rfl
    rw [all, tally_cons]
    exact Moves.refl
  · exact fun _ _ => rfl
  · exact fun _ _ _ _ _ => rfl

/-- The trees from word `k` on are the one below `k` and the later ones. -/
theorem flatMap_range' (lt : k < 512) (f : Nat → List UInt64) :
    (List.range' k (512 - k)).flatMap f =
      f k ++ (List.range' (k + 1) (512 - (k + 1))).flatMap f := by
  have more : 512 - k = (512 - (k + 1)) + 1 := by omega
  rw [more, List.range'_succ, List.flatMap_cons]

/-- A word without a tree below it is passed over. -/
theorem FreeingTable.skip {now : Vm} (freeing : FreeingTable level page vm k now)
    (lt : k < 512) (empty : sv39.child (vm.mem page k) = none) :
    FreeingTable level page vm (k + 1) now := by
  constructor
  · have moves := freeing.moves
    rw [flatMap_range' lt, Format.below_none empty, List.nil_append] at moves
    exact moves
  · exact fun j later => freeing.words j (by omega)
  · exact fun j later => freeing.trees j (by omega)

/-- The tree below a word is freed and the word is cleared. -/
theorem FreeingTable.clear {now after : Vm} {child : UInt64}
    (sep : L.Owns vm (tally (sv39.pages vm.mem (level + 1) page)))
    (freeing : FreeingTable level page vm k now) (lt : k < 512)
    (here : sv39.child (vm.mem page k) = some child)
    (freed : Moves (tally (sv39.pages vm.mem level child)) 0 now after) :
    FreeingTable level page vm (k + 1) { after with mem := setWord after.mem page k 0 } := by
  have distinct := sep.nodup
  have moves := freeing.moves
  rw [flatMap_range' lt, Format.below_some here, tally_append, add_left_comm] at moves
  have separateNow := moves.separate sep
  have rest := freed.add (tally [page] + tally ((List.range' (k + 1) (512 - (k + 1))).flatMap
    (sv39.below vm.mem level page)))
  rw [zero_add] at rest
  -- The page itself and the later trees belong to the surroundings of the call.
  have keptPage : after.mem page = now.mem page := by
    apply freed.kept separateNow
    have := tally_self page
    simp only [Pi.add_apply]
    omega
  constructor
  · apply (moves.trans rest).trans
    apply Moves.write page
    · have := tally_self page
      simp only [Pi.add_apply]
      omega
    · rfl
    · intro p ne
      exact setWord_of_ne ne
  · intro j later
    change setWord after.mem page k 0 page j = _
    rw [setWord_word_of_ne (by omega), keptPage]
    exact freeing.words j (by omega)
  intro j later inside' p member
  have notPage : p ≠ page := by
    rintro rfl
    cases there : sv39.child (vm.mem p j) with
    | none =>
      rw [Format.below_none there] at member
      cases member
    | some =>
      rw [Format.below_some there] at member
      exact (Format.nodup_child distinct inside' there).2 member
  change setWord after.mem page k 0 p = _
  rw [setWord_of_ne notPage, ← freeing.trees j (by omega) inside' p member]
  apply freed.kept separateNow
  have later' : p ∈ (List.range' (k + 1) (512 - (k + 1))).flatMap
      (sv39.below vm.mem level page) := by
    apply List.mem_flatMap.mpr
    exact ⟨j, List.mem_range'_1.mpr ⟨later, by omega⟩, member⟩
  have := tally_pos.mpr later'
  simp only [Pi.add_apply]
  omega

/-- `freewalk` of a table of which no entry is valid frees its pages, by
induction on the level. -/
theorem freewalk_spec (sep : L.Owns vm (tally (sv39.pages vm.mem level page)))
    (inner : sv39.Inner Pointer vm.mem level page)
    (unmapped : ∀ key, sv39.entry vm.mem level page key &&& pteV = 0) :
    wp (freewalk L (level + 1) page)
      (fun _ vm' => Moves (tally (sv39.pages vm.mem level page)) 0 vm vm') Never vm := by
  induction level generalizing page vm with
  | zero =>
    apply wp_seq (wp_forM_range (fun _ now => now = vm) nptes rfl _)
    · rintro _ now rfl
      exact kfree_owned sep
    rintro k now lt rfl
    rw [nptes_eq] at lt
    have invalid : now.mem page k &&& pteV = 0 := by
      have := unmapped k
      rwa [Format.entry, Format.leafPage, Format.digit, Nat.pow_zero, Nat.div_one, sv39_width,
        Nat.mod_eq_of_lt lt] at this
    rw [wp_bind, wp_loadPte]
    rw [if_neg (fun both => both.1 invalid), if_neg (not_not.mpr invalid)]
    rfl
  | succ level ih =>
    rw [freewalk]
    apply wp_seq (wp_forM_range (FreeingTable level page vm) nptes
      (FreeingTable.start level page vm) _)
    · intro _ now freeing
      have moves := freeing.moves
      rw [nptes_eq, Nat.sub_self, List.range'_zero, List.flatMap_nil, tally_nil, add_zero] at moves
      apply wp_imp (kfree_owned (moves.separate sep))
      intro _ _ freed
      exact moves.trans freed
    intro k now lt freeing
    rw [nptes_eq] at lt
    rw [wp_bind, wp_loadPte]
    dsimp only
    rw [freeing.words k le_rfl]
    by_cases invalid : vm.mem page k &&& pteV = 0
    · rw [if_neg (fun both => both.1 invalid), if_neg (not_not.mpr invalid)]
      exact freeing.skip lt (sv39_child_none invalid)
    have here := sv39_child_some invalid
    have pointer : vm.mem page k &&& (pteR ||| pteW ||| pteX) = 0 := by
      rcases (inner k lt).1 with notValid | flags
      · exact (invalid notValid).elim
      · rw [and_flag (by decide), flags]
        decide
    rw [if_pos ⟨invalid, pointer⟩, wp_bind]
    -- The tree below the word is as it was when the loop began.
    have agree : ∀ p ∈ sv39.pages vm.mem level (pte2pa (vm.mem page k)),
        now.mem p = vm.mem p := by
      intro p _
      apply freeing.trees k le_rfl lt
      rwa [Format.below_some here]
    have same := Format.same_congr agree
    have part : L.Owns now
        (tally (sv39.pages now.mem level (pte2pa (vm.mem page k)))) := by
      have all := freeing.moves.separate sep
      rw [flatMap_range' lt, Format.below_some here, tally_append, add_left_comm] at all
      rw [same.pages]
      exact all.left
    apply wp_imp (ih part (same.inner Pointer ((inner k lt).2 _ here)) _)
    · intro _ _ freed
      rw [same.pages] at freed
      exact freeing.clear sep lt here freed
    · intro key
      rw [Format.entry_congr agree]
      exact Format.entry_child (P := fun pte => pte &&& pteV = 0) unmapped lt here key

/-! ### uvmfree -/

/-- A table that maps nothing has no valid entry. -/
theorem Shape.unmapped (shape : Shape vm pt good kernel 0)
    (none : ∀ v, ¬ kernel v) (key : Nat) : sv39.entry vm.mem 2 pt key &&& pteV = 0 := by
  have small : key % 2 ^ 27 < 2 ^ 27 := Nat.mod_lt _ (by decide)
  have same : sv39.entry vm.mem 2 pt key = sv39.entry vm.mem 2 pt (key % 2 ^ 27) := by
    apply Format.entry_mod
    change key % 2 ^ 27 = key % 2 ^ 27 % 2 ^ 27
    rw [Nat.mod_mod]
  have zero : sv39.entry vm.mem 2 pt (key % 2 ^ 27) = 0 :=
    shape.blank _ small (Nat.zero_le _) (none _)
  rw [same, zero]
  decide

/-- `uvmfree` of a table that maps user pages only gives everything back. -/
theorem uvmfree_spec (leafOfGood : ∀ pte, good pte → Leaf pte)
    (none : ∀ v, ¬ kernel v) (sz : UInt64) (sep : L.Owns vm (owned vm pt (pagesOf sz)))
    (shape : Shape vm pt good kernel (pagesOf sz)) :
    wp (uvmfree L pt sz)
      (fun _ vm' => Moves (owned vm pt (pagesOf sz)) 0 vm vm') Never vm := by
  have bound : pagesOf sz ≤ 32768 := pages_bound sep
  have round : (pgroundup sz).toNat = pagesOf sz * 4096 := by
    apply toNat_pgroundup
    rw [pagesOf] at bound
    omega
  have finish : ∀ vm1 : Vm, Moves (owned vm pt (pagesOf sz)) (owned vm1 pt 0) vm vm1 →
      Shape vm1 pt good kernel 0 →
      wp (freewalk L 3 pt)
        (fun _ vm' => Moves (owned vm pt (pagesOf sz)) 0 vm vm') Never vm1 := by
    intro vm1 moves shape1
    have only : owned vm1 pt 0 = tally (vm1.tablePages pt) := zero_add _
    rw [only] at moves
    apply wp_imp (freewalk_spec (moves.separate sep) shape1.inner (shape1.unmapped none))
    intro _ _ freed
    exact moves.trans freed
  rw [uvmfree]
  split
  · have count : (pgroundup sz / pgsize).toNat = pagesOf sz - 0 := by
      rw [UInt64.toNat_div, round]
      exact Nat.mul_div_cancel _ (by decide)
    apply wp_seq (shrink_spec leafOfGood (Nat.zero_le _) sep shape (fun v _ => none v)
      (show (0 : UInt64).toNat = 0 * 4096 from rfl) count)
    rintro _ vm1 ⟨moves, shape1⟩
    exact finish vm1 moves shape1
  rename_i notPos
  have zero : pagesOf sz = 0 := by
    rw [UInt64.not_lt, UInt64.le_iff_toNat_le] at notPos
    change sz.toNat ≤ 0 at notPos
    rw [pagesOf]
    omega
  rw [zero] at shape finish ⊢
  exact finish vm Moves.refl shape

/-! ### The pages mapped for the kernel -/

/-- A page is mapped for the kernel. -/
theorem mapKernel_spec (sep : L.Owns vm (owned vm pt n))
    (shape : Shape vm pt good kernel n) (aligned : Aligned va) (lt : va < maxva)
    (above : n ≤ va.toNat / 4096) (new : ¬ kernel (va.toNat / 4096))
    (leaf : KernelLeaf (pa2pte pa ||| perm ||| pteV)) :
    wp (mappages pt va pgsize pa perm)
      (fun done vm' => Moves (owned vm pt n) (owned vm' pt n) vm vm' ∧
        Shape vm' pt good (fun v => (done = true ∧ v = va.toNat / 4096) ∨ kernel v) n)
      fail vm := by
  have bound : n ≤ 32768 := pages_bound sep
  have blank := shape.blank _ (page_lt lt) above new
  apply wp_imp (mappages_page sep.right shape.inner aligned lt blank)
  intro _ vm' step
  have below : ∀ v < n, vm'.entry pt v = vm.entry pt v := by
    intro v inside'
    rw [step.entry v (by omega), if_neg (by omega)]
  have kept := freedPages_below below
  constructor
  · rw [owned, owned, kept]
    exact step.moves.add_left _
  constructor
  · exact step.inner
  · intro v inside'
    rw [below v inside']
    exact shape.user v inside'
  · intro v small above' isKernel
    rw [step.entry v small]
    split
    · exact leaf
    · rename_i notNew
      exact shape.fixed v small above' (isKernel.resolve_left notNew)
  · intro v small above' notKernel
    rw [not_or] at notKernel
    rw [step.entry v small, if_neg notKernel.1]
    exact shape.blank v small above' notKernel.2

/-- A page mapped for the kernel is unmapped and not freed. -/
theorem unmapKernel_spec (sep : L.Owns vm (owned vm pt n))
    (shape : Shape vm pt good kernel n) (aligned : Aligned va) (lt : va < maxva)
    (above : n ≤ va.toNat / 4096) (here : kernel (va.toNat / 4096)) :
    wp (uvmunmap L pt va 1 false)
      (fun _ vm' => Moves (owned vm pt n) (owned vm' pt n) vm vm' ∧
        Shape vm' pt good (fun v => v ≠ va.toNat / 4096 ∧ kernel v) n)
      Never vm := by
  have isOne : (1 : UInt64).toNat = 1 := rfl
  have nothing : tally (freedPages (vm.entry pt) false (va.toNat / 4096) 1) +
      tally (vm.tablePages pt) = tally (vm.tablePages pt) := zero_add _
  have small := page_lt lt
  refine wp_mono (uvmunmap_spec True InPool.accepted ?_ shape.inner (fun _ => aligned) ?_ ?_) ?_ ?_
  · rw [isOne, nothing]
    exact sep.right
  · rw [UInt64.lt_iff_toNat_lt] at lt
    change va.toNat < 0x4000000000 at lt
    change va.toNat + 1 * 4096 ≤ 0x4000000000
    rw [Aligned] at aligned
    omega
  · intro _ v low high
    obtain rfl : v = va.toNat / 4096 := by omega
    have leaf := (shape.fixed _ small above here).1
    exact ⟨leaf.1, leaf.flags⟩
  · intro _ vm' unmapped
    have moves := unmapped.moves
    rw [isOne, nothing] at moves
    have entry : ∀ v < 2 ^ 27, vm'.entry pt v =
        if v = va.toNat / 4096 then 0 else vm.entry pt v := by
      intro v inside'
      rw [unmapped.entry v inside']
      apply if_congr _ rfl rfl
      omega
    have below : ∀ v < n, vm'.entry pt v = vm.entry pt v := by
      intro v inside'
      rw [entry v (by omega), if_neg (by omega)]
    have kept := freedPages_below below
    constructor
    · rw [owned, owned, kept]
      exact moves.add_left _
    constructor
    · exact unmapped.inner
    · intro v inside'
      rw [below v inside']
      exact shape.user v inside'
    · intro v inside' above' isKernel
      rw [entry v inside', if_neg isKernel.1]
      exact shape.fixed v inside' above' isKernel.2
    intro v inside' above' notKernel
    rw [entry v inside']
    split
    · rfl
    · rename_i ne
      exact shape.blank v inside' above' fun isKernel => notKernel ⟨ne, isKernel⟩
  · exact fun _ absurd => absurd trivial

end CustomXv6

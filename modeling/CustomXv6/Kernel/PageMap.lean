/-
Module: CustomXv6.Kernel.PageMap
Purpose: walk, mappages and uvmunmap on a page table refine a finite map.
Trusted boundary: human-reviewed spec
Main exports: walk_spec, MapSys.step, pageTable_refines
-/
import CustomXv6.Kernel.PageTable
import CustomXv6.Lib.Transition

namespace CustomXv6

open PageHeap RadixTree Hoare Transition
open Function

/-! ### The rules of the allocator -/

variable {pa a va page pt r : UInt64} {rest : List UInt64} {found : Option PtePtr}
  {vm vm' vm'' : Vm} {entries : Nat → UInt64} {level rounds : Nat} {ok : UInt64 → Prop}
  {post : Unit → Vm → Prop} {fail : VmPanic → Prop}

@[simp] theorem wp_fill (page : UInt64) (words : Nat → UInt64) :
    wp (fill page words) post fail vm ↔
      post () { vm with mem := update vm.mem page words } := Iff.rfl

@[simp] theorem wp_loadPte {post : UInt64 → Vm → Prop} (ptr : PtePtr) :
    wp (loadPte ptr) post fail vm ↔ post (vm.mem ptr.1 ptr.2) vm := Iff.rfl

@[simp] theorem wp_storePte (ptr : PtePtr) (value : UInt64) :
    wp (storePte ptr value) post fail vm ↔
      post () { vm with mem := setWord vm.mem ptr.1 ptr.2 value } := Iff.rfl

/-- The memory after `kalloc` has returned `r`. -/
def takePage (vm : Vm) (r : UInt64) (rest : List UInt64) : Vm :=
  ⟨rest, update vm.mem r fun _ => 0x0505050505050505⟩

theorem takePage_mem_of_ne {p : UInt64} (ne : p ≠ r) :
    (takePage vm r rest).mem p = vm.mem p := update_of_ne ne _ _

/-- The memory after `kfree(pa)`. -/
def freePage (vm : Vm) (pa : UInt64) : Vm :=
  ⟨pa :: vm.freelist, update vm.mem pa fun _ => 0x0101010101010101⟩

/-- `kalloc` takes the first free page, if there is one. -/
theorem wp_kalloc {post : Option UInt64 → Vm → Prop} (empty : vm.freelist = [] → post none vm)
    (taken : ∀ r rest, vm.freelist = r :: rest →
      post (some r) (takePage vm r rest)) : wp kalloc post fail vm := by
  simp only [kalloc, wp_bind, wp_get]
  cases free : vm.freelist with
  | nil => exact empty free
  | cons r rest => exact taken r rest free

/-- `kfree` puts the page in front of the free list, if it accepts it. -/
theorem wp_kfree {L : Layout}
    (refused : ¬ (Aligned pa ∧ L.kend ≤ pa ∧ pa < phystop) → fail .kfree)
    (freed : post () (freePage vm pa)) : wp (kfree L pa) post fail vm := by
  rw [kfree]
  split_ifs with panics
  · apply refused
    rintro ⟨aligned, low, high⟩
    rcases panics with unaligned | below | above
    · exact unaligned (aligned_iff.mpr aligned)
    · exact UInt64.not_lt.mpr low below
    · exact UInt64.not_le.mpr high above
  · exact freed

/-! ### The tree of a page table -/

def Vm.tablePages (vm : Vm) (pt : UInt64) : List UInt64 := sv39.pages vm.mem 2 pt

def Vm.entry (vm : Vm) (pt : UInt64) (v : Nat) : UInt64 := sv39.entry vm.mem 2 pt v

/-- A word of the upper levels is not valid, or valid and nothing else, as `freewalk` needs. -/
def Pointer (pte : UInt64) : Prop := pte &&& pteV = 0 ∨ pteFlags pte = pteV

theorem pointer_encode (page : UInt64) : Pointer (pa2pte page ||| pteV) :=
  .inr (pteFlags_encode page (by decide))

/-- Flags with the valid bit make a valid entry. -/
theorem encode_valid (pa : UInt64) {flags : UInt64} (bits : flags.toNat < 1024)
    (valid : flags &&& pteV ≠ 0) : (pa2pte pa ||| flags) &&& pteV ≠ 0 := by
  rw [and_flag (by decide), pteFlags_encode pa bits]
  exact valid

theorem child_encode (aligned : Aligned page) : sv39.child (pa2pte page ||| pteV) = some page := by
  rw [sv39_child_some (encode_valid page (by decide) (by decide)),
    pte2pa_encode aligned (by decide)]

/-- Without `alloc`, `walk` only looks. -/
theorem walkFrom_lookup (small : level ≤ 2) :
    walkFrom va false level pt vm =
      .ok ((sv39.leafPage vm.mem level pt (va.toNat / 4096)).map (·, px 0 va), vm) := by
  induction level generalizing pt with
  | zero => rfl
  | succ level ih =>
    have index := px_eq_digit small va
    by_cases valid : vm.mem pt (px (level + 1) va) &&& pteV ≠ 0
    · have below := sv39_child_some valid
      rw [index] at below
      rw [Format.leafPage_some below, ← ih (by omega), ← index]
      change (if vm.mem pt (px (level + 1) va) &&& pteV ≠ 0 then _ else _ : VmM _) vm = _
      rw [if_pos valid]
    have below := sv39_child_none (not_not.mp valid)
    rw [index] at below
    rw [Format.leafPage_none below]
    change (if vm.mem pt (px (level + 1) va) &&& pteV ≠ 0 then _ else _ : VmM _) vm = _
    rw [if_neg valid]
    rfl

/-- `walk(pagetable, va, 0)` for an address in range. -/
theorem walk_lookup (lt : va < maxva) :
    walk pt va false vm =
      .ok ((sv39.leafPage vm.mem 2 pt (va.toNat / 4096)).map (·, px 0 va), vm) := by
  rw [walk, if_neg (UInt64.not_le.mpr lt)]
  exact walkFrom_lookup le_rfl

/-- A page table goes through a change of memory with its entries, and its upper levels stay
pointers. -/
structure TableStep (pt : UInt64) (entries : Nat → UInt64) (vm vm' : Vm) : Prop where
  moves : Moves (tally (vm.tablePages pt)) (tally (vm'.tablePages pt)) vm vm'
  inner : sv39.Inner Pointer vm'.mem 2 pt
  entry : ∀ v < 2 ^ 27, vm'.entry pt v = entries v

/-- How `walk` with `alloc` leaves the tree below a page, and where it finds the
entry. -/
structure Grown (va : UInt64) (level : Nat) (page : UInt64) (vm : Vm) (found : Option PtePtr)
    (vm' : Vm) : Prop where
  moves : Moves (tally (sv39.pages vm.mem level page)) (tally (sv39.pages vm'.mem level page)) vm vm'
  inner : sv39.Inner Pointer vm'.mem level page
  entry : ∀ key, sv39.entry vm'.mem level page key = sv39.entry vm.mem level page key
  place : ∀ ptr, found = some ptr →
    sv39.leafPage vm'.mem level page (va.toNat / 4096) = some ptr.1 ∧ ptr.2 = px 0 va

/-- A step in the tree below one word of a page is a step in the tree of the page. -/
theorem Grown.lift {child : UInt64}
    (sep : Separate ok vm (tally (sv39.pages vm.mem (level + 1) page)))
    (inner : sv39.Inner Pointer vm.mem (level + 1) page)
    (here : sv39.child (vm.mem page (sv39.digit (level + 1) (va.toNat / 4096))) = some child)
    (grown : Grown va level child vm found vm') : Grown va (level + 1) page vm found vm' := by
  have lt := sv39.digit_lt (level + 1) (va.toNat / 4096)
  have split : tally (sv39.pages vm.mem (level + 1) page) =
      tally (sv39.pages vm.mem level child) +
        tally (sv39.others vm.mem level page (sv39.digit (level + 1) (va.toNat / 4096))) := by
    rw [tally_perm (Format.pages_perm lt), tally_append, Format.below_some here, add_comm]
  rw [split] at sep
  have beside : sv39.Beside vm.mem vm'.mem level page
      (sv39.digit (level + 1) (va.toNat / 4096)) :=
    Format.beside_of_others fun p member => grown.moves.kept sep (tally_pos.mpr member)
  have top : vm'.mem page = vm.mem page := grown.moves.kept sep (tally_pos.mpr (.head _))
  have here' : sv39.child (vm'.mem page (sv39.digit (level + 1) (va.toNat / 4096))) =
      some child := by rw [top, here]
  constructor
  · have split' : tally (sv39.pages vm'.mem (level + 1) page) =
        tally (sv39.pages vm'.mem level child) +
          tally (sv39.others vm.mem level page (sv39.digit (level + 1) (va.toNat / 4096))) := by
      rw [tally_perm (Format.pages_perm lt), tally_append, Format.below_some here', add_comm,
        beside.others]
    rw [split, split']
    exact grown.moves.add _
  · apply beside.inner inner
    · rw [top]
      exact (inner _ lt).1
    intro _ there
    rw [here'] at there
    cases there
    exact grown.inner
  · intro key
    by_cases same : sv39.digit (level + 1) key = sv39.digit (level + 1) (va.toNat / 4096)
    · rw [← same] at here here'
      rw [Format.entry_some here, Format.entry_some here']
      exact grown.entry key
    · exact beside.entry same
  · intro ptr isFound
    rw [Format.leafPage_some here']
    exact grown.place ptr isFound

/-- The memory after `walk` has put a fresh page `r` below a word that pointed
nowhere. -/
def attach (vm : Vm) (page : UInt64) (i : Nat) (r : UInt64) (rest : List UInt64) : Vm :=
  ⟨rest, setWord (update (takePage vm r rest).mem r fun _ => 0) page i (pa2pte r ||| pteV)⟩

theorem attach_mem_of_ne {p : UInt64} {i : Nat} (notPage : p ≠ page) (notFresh : p ≠ r) :
    (attach vm page i r rest).mem p = vm.mem p := by
  change setWord _ page i _ p = _
  rw [setWord_of_ne notPage, update_of_ne notFresh, takePage_mem_of_ne notFresh]

/-- A fresh page below a word changes no entry. -/
theorem attach_grown (pageAligned : ∀ p, ok p → Aligned p)
    (sep : Separate ok vm (tally (sv39.pages vm.mem (level + 1) page)))
    (inner : sv39.Inner Pointer vm.mem (level + 1) page)
    (empty : sv39.child (vm.mem page (sv39.digit (level + 1) (va.toNat / 4096))) = none)
    (free : vm.freelist = r :: rest) :
    let vm' := attach vm page (sv39.digit (level + 1) (va.toNat / 4096)) r rest
    Grown va (level + 1) page vm none vm' ∧
      sv39.child (vm'.mem page (sv39.digit (level + 1) (va.toNat / 4096))) = some r := by
  intro vm'
  have lt := sv39.digit_lt (level + 1) (va.toNat / 4096)
  have isFree : 0 < tally vm.freelist r := tally_pos.mpr (free ▸ (.head _))
  have aligned : Aligned r := pageAligned r (sep.good r (by omega))
  -- The fresh page is none of the pages of the tree.
  have fresh : ∀ p ∈ sv39.pages vm.mem (level + 1) page, p ≠ r := by
    rintro p member rfl
    have single := sep.single p
    have owned := tally_pos.mpr member
    omega
  have notRoot : r ≠ page := (fresh page Format.root_mem).symm
  have word : vm'.mem page (sv39.digit (level + 1) (va.toNat / 4096)) = pa2pte r ||| pteV :=
    setWord_self
  have below : sv39.child (vm'.mem page (sv39.digit (level + 1) (va.toNat / 4096))) = some r := by
    rw [word, child_encode aligned]
  have blank : ∀ i, vm'.mem r i = sv39.blank := by
    intro i
    change setWord _ page _ _ r i = 0
    rw [setWord_of_ne notRoot, update_self]
  have distinct := sep.nodup
  have beside : sv39.Beside vm.mem vm'.mem level page
      (sv39.digit (level + 1) (va.toNat / 4096)) := by
    constructor
    · intro j ne
      change setWord _ page _ _ page j = _
      rw [setWord_word_of_ne ne, update_of_ne notRoot.symm, takePage_mem_of_ne notRoot.symm]
    intro j inside' _ child here p member
    apply attach_mem_of_ne
    · rintro rfl
      exact (Format.nodup_child distinct inside' here).2 member
    · exact fresh p (Format.mem_pages_of_child inside' here member)
  have pages : tally (sv39.pages vm'.mem (level + 1) page) =
      tally (sv39.pages vm.mem (level + 1) page) + tally [r] := by
    rw [tally_perm (Format.pages_perm lt), tally_append, Format.below_some below,
      Format.pages_blank blank, beside.others, tally_perm (Format.pages_perm lt),
      tally_append, Format.below_none empty]
    rfl
  refine ⟨⟨?_, ?_, ?_, ?_⟩, below⟩
  · -- First the page is handed out, then the tree that now owns it is written.
    rw [pages]
    have taken : Moves (tally (sv39.pages vm.mem (level + 1) page))
        (tally (sv39.pages vm.mem (level + 1) page) + tally [r]) vm
        ⟨rest, update (takePage vm r rest).mem r fun _ => 0⟩ := by
      apply Moves.alloc free rfl
      intro p ne
      change update _ r _ p = _
      rw [update_of_ne ne, takePage_mem_of_ne ne]
    apply taken.trans
    apply Moves.write page
    · exact Nat.add_pos_left (tally_pos.mpr Format.root_mem) _
    · rfl
    · intro p ne
      exact setWord_of_ne ne
  · apply beside.inner inner
    · rw [word]
      exact pointer_encode r
    intro _ there
    rw [below] at there
    cases there
    exact Format.inner_blank (.inl rfl) blank
  · intro key
    by_cases same : sv39.digit (level + 1) key = sv39.digit (level + 1) (va.toNat / 4096)
    · rw [← same] at below empty
      rw [Format.entry_some below, Format.entry_none empty]
      exact Format.entry_blank blank key
    · exact beside.entry same
  · intro _ absurd
    cases absurd

theorem Grown.trans {found' : Option PtePtr} (first : Grown va level page vm found vm')
    (second : Grown va level page vm' found' vm'') : Grown va level page vm found' vm'' :=
  ⟨first.moves.trans second.moves, second.inner,
    fun key => (second.entry key).trans (first.entry key), second.place⟩

/-- `walk` with `alloc`, by induction on the level: at each level it follows the
pointer or makes one. -/
theorem walkFrom_spec (pageAligned : ∀ p, ok p → Aligned p)
    (small : level ≤ 2) (sep : Separate ok vm (tally (sv39.pages vm.mem level page)))
    (inner : sv39.Inner Pointer vm.mem level page) :
    wp (walkFrom va true level page) (Grown va level page vm) fail vm := by
  induction level generalizing page vm with
  | zero =>
    refine ⟨Moves.refl, trivial, fun _ => rfl, ?_⟩
    rintro ptr ⟨⟩
    exact ⟨rfl, rfl⟩
  | succ level ih =>
    have index := px_eq_digit small va
    rw [walkFrom, wp_bind, wp_loadPte]
    by_cases valid : vm.mem page (px (level + 1) va) &&& pteV ≠ 0
    · rw [if_pos valid]
      have here := sv39_child_some valid
      rw [index] at here
      have lt := sv39.digit_lt (level + 1) (va.toNat / 4096)
      have part : Separate ok vm (tally (sv39.pages vm.mem level
          (pte2pa (vm.mem page (px (level + 1) va))))) := by
        rw [tally_perm (Format.pages_perm lt), tally_append, Format.below_some here] at sep
        rw [index]
        exact sep.right
      apply wp_imp (ih (by omega) part _)
      · intro found vm' grown
        rw [index] at grown
        exact grown.lift sep inner here
      · rw [index]
        exact (inner _ lt).2 _ here
    rw [if_neg valid, if_pos rfl, wp_bind]
    have empty := sv39_child_none (not_not.mp valid)
    rw [index] at empty
    apply wp_kalloc
    · intro _
      refine ⟨Moves.refl, inner, fun _ => rfl, ?_⟩
      intro _ absurd
      cases absurd
    intro r rest free
    obtain ⟨attached, here⟩ := attach_grown pageAligned sep inner empty free
    rw [wp_bind, wp_fill, wp_bind, wp_storePte, index]
    have lt := sv39.digit_lt (level + 1) (va.toNat / 4096)
    have sep' := attached.moves.separate sep
    have part : Separate ok (attach vm page (sv39.digit (level + 1) (va.toNat / 4096)) r rest)
        (tally (sv39.pages (attach vm page (sv39.digit (level + 1) (va.toNat / 4096)) r
          rest).mem level r)) := by
      have whole := sep'
      rw [tally_perm (Format.pages_perm lt), tally_append, Format.below_some here] at whole
      exact whole.right
    apply wp_imp (ih (by omega) part ((attached.inner _ lt).2 _ here))
    intro _ _ grown
    exact attached.trans (grown.lift sep' attached.inner here)

/-! ### One entry -/

/-- The addresses below `MAXVA` are those of the pages below 2^27. -/
theorem page_lt (lt : va < maxva) : va.toNat / 4096 < 2 ^ 27 := by
  have bound : va.toNat < 0x4000000000 := UInt64.lt_iff_toNat_lt.mp lt
  omega

/-- The place `walk` returns holds the entry of the page. -/
theorem load_entry (ptr : PtePtr)
    (place : sv39.leafPage vm.mem 2 pt (va.toNat / 4096) = some ptr.1)
    (index : ptr.2 = px 0 va) : vm.mem ptr.1 ptr.2 = vm.entry pt (va.toNat / 4096) := by
  rw [Vm.entry, Format.entry, place, index, px_eq_digit (Nat.zero_le 2)]

/-- `walk(pagetable, va, 0)` finds a valid entry. -/
theorem walk_valid (lt : va < maxva) (valid : vm.entry pt (va.toNat / 4096) &&& pteV ≠ 0) :
    ∃ ptr : PtePtr, walk pt va false vm = .ok (some ptr, vm) ∧
      sv39.leafPage vm.mem 2 pt (va.toNat / 4096) = some ptr.1 ∧ ptr.2 = px 0 va ∧
      vm.mem ptr.1 ptr.2 = vm.entry pt (va.toNat / 4096) := by
  cases place : sv39.leafPage vm.mem 2 pt (va.toNat / 4096) with
  | none =>
    rw [Vm.entry, Format.entry, place] at valid
    exact (valid (show (0 : UInt64) &&& pteV = 0 by decide)).elim
  | some leaf =>
    refine ⟨(leaf, px 0 va), ?_, rfl, rfl, load_entry _ place rfl⟩
    rw [walk_lookup lt, place]
    rfl

/-- Writing the place `walk` returns changes the entry of that page and no other. -/
theorem store_entry (ptr : PtePtr) (sep : Separate ok vm (tally (vm.tablePages pt)))
    (inner : sv39.Inner Pointer vm.mem 2 pt) (lt : va < maxva)
    (place : sv39.leafPage vm.mem 2 pt (va.toNat / 4096) = some ptr.1)
    (index : ptr.2 = px 0 va) (value : UInt64) :
    TableStep pt
      (fun v => if v = va.toNat / 4096 then value else vm.entry pt v) vm
      { vm with mem := setWord vm.mem ptr.1 ptr.2 value } := by
  have distinct := sep.nodup
  have same := Format.same_write distinct place ptr.2 value
  constructor
  · have pages : Vm.tablePages { vm with mem := setWord vm.mem ptr.1 ptr.2 value } pt =
        vm.tablePages pt := same.pages
    rw [pages]
    apply Moves.write ptr.1
    · exact tally_pos.mpr (Format.leafPage_mem place)
    · rfl
    · intro p ne
      exact setWord_of_ne ne
  · exact same.inner Pointer inner
  intro v small
  have digit : ptr.2 = sv39.digit 0 (va.toNat / 4096) := by
    rw [index, px_eq_digit (Nat.zero_le 2)]
  have written := Format.entry_write distinct place value v
  rw [← digit] at written
  have small' := page_lt lt
  have power : sv39.width ^ (2 + 1) = 2 ^ 27 := rfl
  rw [power, Nat.mod_eq_of_lt small, Nat.mod_eq_of_lt small'] at written
  exact written

theorem TableStep.separate (step : TableStep pt entries vm vm')
    (pre : Separate ok vm (tally (vm.tablePages pt))) :
    Separate ok vm' (tally (vm'.tablePages pt)) := step.moves.separate pre

variable {entries' : Nat → UInt64}

theorem TableStep.trans (first : TableStep pt entries vm vm')
    (second : TableStep pt entries' vm' vm'') : TableStep pt entries' vm vm'' :=
  ⟨first.moves.trans second.moves, second.inner, second.entry⟩

theorem TableStep.congr (step : TableStep pt entries vm vm')
    (same : ∀ v < 2 ^ 27, entries v = entries' v) : TableStep pt entries' vm vm' :=
  ⟨step.moves, step.inner, fun v small => (step.entry v small).trans (same v small)⟩

theorem Grown.step (grown : Grown va 2 pt vm found vm') :
    TableStep pt (vm.entry pt) vm vm' :=
  ⟨grown.moves, grown.inner, fun v _ => grown.entry v⟩

/-! ### mappages -/

/-- `walk(pagetable, va, 1)` for an address in range. -/
theorem walk_spec (pageAligned : ∀ p, ok p → Aligned p)
    (sep : Separate ok vm (tally (vm.tablePages pt)))
    (inner : sv39.Inner Pointer vm.mem 2 pt) (lt : va < maxva) :
    wp (walk pt va true) (Grown va 2 pt vm) fail vm := by
  rw [walk, if_neg (UInt64.not_le.mpr lt)]
  exact walkFrom_spec pageAligned le_rfl sep inner

/-- The entries after `mappages` has mapped `n` pages from `first` on. -/
def mappedEntries (entries : Nat → UInt64) (first n : Nat) (pa perm : UInt64) (v : Nat) : UInt64 :=
  if first ≤ v ∧ v < first + n then
    pa2pte (pa + UInt64.ofNat ((v - first) * 4096)) ||| perm ||| pteV
  else entries v

/-- The loop of `mappages`, by induction on the rounds left. -/
theorem mappagesLoop_spec (pageAligned : ∀ p, ok p → Aligned p) {last perm : UInt64}
    (sep : Separate ok vm (tally (vm.tablePages pt)))
    (inner : sv39.Inner Pointer vm.mem 2 pt) (aligned : Aligned a) :
    wp (mappagesLoop pt last perm rounds a pa)
      (fun done vm' => done = true → a.toNat ≤ last.toNat ∧ last < maxva ∧
        TableStep pt (mappedEntries (vm.entry pt) (a.toNat / 4096)
          (last.toNat / 4096 + 1 - a.toNat / 4096) pa perm) vm vm')
      (fun _ => True) vm := by
  induction rounds generalizing a pa vm with
  | zero => trivial
  | succ _ ih =>
    rw [mappagesLoop, wp_bind]
    by_cases lt : a < maxva
    · apply wp_imp (walk_spec pageAligned sep inner lt)
      intro found _ grown
      cases found with
      | none =>
        intro absurd
        cases absurd
      | some ptr =>
        obtain ⟨place, index⟩ := grown.place ptr rfl
        have sep1 := grown.moves.separate sep
        have stored := grown.step.trans
          (store_entry ptr sep1 grown.inner lt place index (pa2pte pa ||| perm ||| pteV))
        simp only [wp_bind, wp_loadPte]
        split
        · trivial
        rw [wp_bind, wp_storePte]
        have start : UInt64.ofNat 0 = 0 := rfl
        split_ifs with isLast
        · subst isLast
          intro _
          refine ⟨le_rfl, lt, stored.congr fun v small => ?_⟩
          rw [mappedEntries]
          by_cases here : v = a.toNat / 4096
          · rw [if_pos here, if_pos (by omega), here, Nat.sub_self, Nat.zero_mul, start,
              UInt64.add_zero]
          · rw [if_neg here, if_neg (by omega)]
            exact grown.entry v
        -- The next address does not wrap: it is at most `MAXVA`.
        have next : (a + pgsize).toNat = a.toNat + 4096 := by
          have bound : a.toNat < 0x4000000000 := UInt64.lt_iff_toNat_lt.mp lt
          change (a.toNat + 4096) % 2 ^ 64 = _
          omega
        have aligned' : Aligned (a + pgsize) := by
          rw [Aligned] at aligned ⊢
          omega
        apply wp_imp (ih (stored.separate sep) stored.inner aligned')
        intro _ _ rest isDone
        obtain ⟨_, lastInside, step⟩ := rest isDone
        refine ⟨by omega, lastInside, (stored.trans step).congr fun v small => ?_⟩
        rw [mappedEntries, mappedEntries, next]
        by_cases here : v = a.toNat / 4096
        · rw [if_neg (by omega), stored.entry v small, if_pos here, if_pos (by omega),
            here, Nat.sub_self, Nat.zero_mul, start, UInt64.add_zero]
        by_cases later : (a.toNat + 4096) / 4096 ≤ v ∧ v < (a.toNat + 4096) / 4096 +
            (last.toNat / 4096 + 1 - (a.toNat + 4096) / 4096)
        · have shift : (v - a.toNat / 4096) * 4096 =
              4096 + (v - (a.toNat + 4096) / 4096) * 4096 := by omega
          rw [if_pos later, if_pos (by omega), shift, UInt64.ofNat_add, UInt64.add_assoc]
          rfl
        · rw [if_neg later, stored.entry v small, if_neg here, if_neg (by omega)]
          exact grown.entry v
    · rw [walk, if_pos (UInt64.not_lt.mp lt)]
      trivial

/-- A successful `mappages` maps the pages of its range, all of them below
`MAXVA`. -/
theorem mappages_spec (pageAligned : ∀ p, ok p → Aligned p) {size perm : UInt64}
    (sep : Separate ok vm (tally (vm.tablePages pt))) (inner : sv39.Inner Pointer vm.mem 2 pt) :
    wp (mappages pt va size pa perm)
      (fun done vm' => done = true →
        TableStep pt (mappedEntries (vm.entry pt) (va.toNat / 4096)
          (size.toNat / 4096) pa perm) vm vm')
      (fun _ => True) vm := by
  rw [mappages]
  split
  · trivial
  rename_i vaAligned
  split
  · trivial
  rename_i sizeAligned
  split
  · trivial
  rename_i ne0
  have aligned := aligned_iff.mp (not_not.mp vaAligned)
  have whole := aligned_iff.mp (not_not.mp sizeAligned)
  rw [← UInt64.toNat_inj] at ne0
  rw [Aligned] at aligned whole
  apply wp_imp (mappagesLoop_spec pageAligned sep inner aligned)
  intro _ _ mapped isDone
  obtain ⟨order, _, step⟩ := mapped isDone
  -- The range does not wrap, or its last page would not be above its first.
  have last : (va + size - pgsize).toNat = va.toNat + size.toNat - 4096 := by
    have bound' := size.toNat_lt
    rw [UInt64.toNat_sub, UInt64.toNat_add] at order ⊢
    change va.toNat ≤ (2 ^ 64 - 4096 + _) % 2 ^ 64 at order
    change (2 ^ 64 - 4096 + _) % 2 ^ 64 = _
    change ¬ size.toNat = 0 at ne0
    omega
  have length : (va + size - pgsize).toNat / 4096 + 1 - va.toNat / 4096 =
      size.toNat / 4096 := by
    change ¬ size.toNat = 0 at ne0
    omega
  rw [length] at step
  exact step

/-! ### uvmunmap -/

section Uvmunmap

variable {own own' : UInt64 → Nat} {doFree : Bool} {n first : Nat} {L : Layout}

/-- A table is not touched by code that does not own its pages. -/
theorem table_kept (moves : Moves own own' vm vm')
    (sep : Separate ok vm (own + tally (vm.tablePages pt))) :
    sv39.Same vm.mem vm'.mem 2 pt ∧
      ∀ v, vm'.entry pt v = vm.entry pt v := by
  have agree : ∀ p ∈ sv39.pages vm.mem 2 pt, vm'.mem p = vm.mem p := fun p member =>
    moves.kept sep (tally_pos.mpr member)
  exact ⟨Format.same_congr agree, Format.entry_congr agree⟩

theorem tablePages_of_same (same : sv39.Same vm.mem vm'.mem 2 pt) :
    vm'.tablePages pt = vm.tablePages pt := same.pages

theorem kfree_moves (vm : Vm) (pa : UInt64) : Moves (tally [pa]) 0 vm (freePage vm pa) := by
  rw [← zero_add (tally [pa])]
  apply Moves.free rfl
  intro p ne
  exact update_of_ne ne _ _

/-- The pages `uvmunmap` gives back for `n` virtual pages from `first` on. -/
def freedPages (entries : Nat → UInt64) (doFree : Bool) (first n : Nat) : List UInt64 :=
  if doFree then (List.range' first n).map fun v => pte2pa (entries v) else []

theorem freedPages_succ (entries : Nat → UInt64) (doFree : Bool) (first n : Nat) :
    freedPages entries doFree first (n + 1) =
      freedPages entries doFree first 1 ++ freedPages entries doFree (first + 1) n := by
  cases doFree with
  | false => rfl
  | true => rfl

theorem freedPages_congr (same : ∀ v, first ≤ v → v < first + n → entries v = entries' v) :
    freedPages entries doFree first n = freedPages entries' doFree first n := by
  cases doFree with
  | false => rfl
  | true =>
    apply List.map_congr_left
    intro v member
    rw [List.mem_range'_1] at member
    rw [same v member.1 member.2]

theorem aligned_freedPages (entries : Nat → UInt64) (doFree : Bool) (first n : Nat) :
    ∀ p ∈ freedPages entries doFree first n, Aligned p := by
  intro p member
  cases doFree with
  | false => cases member
  | true =>
    obtain ⟨_, _, rfl⟩ := List.mem_map.mp member
    exact aligned_pte2pa _

/-- What `uvmunmap` does: the entries of the range are cleared, and its pages go back if it
frees. -/
structure Unmapped (pt : UInt64) (doFree : Bool) (first n : Nat) (vm vm' : Vm) : Prop where
  moves : Moves (tally (freedPages (vm.entry pt) doFree first n) +
    tally (vm.tablePages pt)) (tally (vm'.tablePages pt)) vm vm'
  inner : sv39.Inner Pointer vm'.mem 2 pt
  entry : ∀ v < 2 ^ 27, vm'.entry pt v =
    if first ≤ v ∧ v < first + n then 0 else vm.entry pt v

theorem Unmapped.nil (inner : sv39.Inner Pointer vm.mem 2 pt) :
    Unmapped pt doFree first 0 vm vm := by
  have none : freedPages (vm.entry pt) doFree first 0 = [] := by
    cases doFree with
    | false => rfl
    | true => rfl
  refine ⟨?_, inner, fun v _ => ?_⟩
  · rw [none, tally_nil, zero_add]
    exact Moves.refl
  · rw [if_neg (by omega)]

/-- One round after another. -/
theorem Unmapped.cons (small : first + 1 + n ≤ 2 ^ 27) (head : Unmapped pt doFree first 1 vm vm')
    (tail : Unmapped pt doFree (first + 1) n vm' vm'') :
    Unmapped pt doFree first (n + 1) vm vm'' := by
  have later : freedPages (vm.entry pt) doFree (first + 1) n =
      freedPages (vm'.entry pt) doFree (first + 1) n := by
    apply freedPages_congr
    intro v _ _
    rw [head.entry v (by omega), if_neg (by omega)]
  refine ⟨?_, tail.inner, fun v lt => ?_⟩
  · have moved := head.moves.add_left (tally (freedPages (vm.entry pt) doFree (first + 1) n))
    rw [freedPages_succ, tally_append, add_right_comm, add_comm]
    apply moved.trans
    rw [later]
    exact tail.moves
  rw [tail.entry v lt, head.entry v lt]
  by_cases here : v = first
  · rw [if_neg (by omega), if_pos (by omega), if_pos (by omega)]
  by_cases there : first + 1 ≤ v ∧ v < first + 1 + n
  · rw [if_pos there, if_pos (by omega)]
  · rw [if_neg there, if_neg (by omega), if_neg (by omega)]

/-- One round: the optional `kfree` and the write of the entry. -/
theorem unmapEntry_spec (ptr : PtePtr)
    (sep : Separate ok vm (tally (freedPages (vm.entry pt) doFree (a.toNat / 4096) 1) +
      tally (vm.tablePages pt))) (inner : sv39.Inner Pointer vm.mem 2 pt)
    (lt : a < maxva) (place : sv39.leafPage vm.mem 2 pt (a.toNat / 4096) = some ptr.1)
    (index : ptr.2 = px 0 a)
    (refused : ∀ pa, ok pa → ¬ (Aligned pa ∧ L.kend ≤ pa ∧ pa < phystop) → fail .kfree) :
    wp (unmapEntry L doFree ptr (vm.entry pt (a.toNat / 4096)))
      (fun _ vm' => Unmapped pt doFree (a.toNat / 4096) 1 vm vm') fail vm := by
  cases doFree with
  | false =>
    have stored := store_entry ptr sep.right inner lt place index 0
    refine ⟨?_, stored.inner, fun v small => ?_⟩
    · change Moves (0 + _) _ _ _
      rw [zero_add]
      exact stored.moves
    · rw [stored.entry v small]
      apply if_congr _ rfl rfl
      omega
  | true =>
    have freed : freedPages (vm.entry pt) true (a.toNat / 4096) 1 =
        [pte2pa (vm.entry pt (a.toNat / 4096))] := rfl
    rw [freed] at sep
    rw [unmapEntry, if_pos rfl, wp_bind]
    apply wp_kfree
    · apply refused
      apply sep.good
      have := tally_self (pte2pa (vm.entry pt (a.toNat / 4096)))
      simp only [Pi.add_apply]
      omega
    rw [wp_storePte]
    have gone := kfree_moves vm (pte2pa (vm.entry pt (a.toNat / 4096)))
    obtain ⟨same, entries⟩ := table_kept gone sep
    have sep' := (gone.add _).separate sep
    rw [zero_add, ← tablePages_of_same same] at sep'
    have stored := store_entry ptr sep' (same.inner Pointer inner) lt
      ((same.leafPage _).trans place) index 0
    constructor
    · have first := gone.add (tally (vm.tablePages pt))
      have second := stored.moves
      rw [tablePages_of_same same] at second
      rw [zero_add] at first
      exact first.trans second
    · exact stored.inner
    · intro v small
      rw [stored.entry v small, entries]
      apply if_congr _ rfl rfl
      omega

variable (strict : Prop) (accepted : strict → ∀ pa, ok pa → Aligned pa ∧ L.kend ≤ pa ∧ pa < phystop)
include strict accepted

/-- The loop of `uvmunmap`.  If the range is mapped and `kfree` accepts its
pages (`strict`), it does not panic. -/
theorem uvmunmapLoop_spec {stop : UInt64}
    (sep : Separate ok vm (tally (freedPages (vm.entry pt) doFree (a.toNat / 4096) n) +
      tally (vm.tablePages pt))) (inner : sv39.Inner Pointer vm.mem 2 pt)
    (aligned : Aligned a) (length : stop.toNat = a.toNat + n * 4096) (lt : stop ≤ maxva)
    (enough : strict → n ≤ rounds)
    (leaves : strict → ∀ v, a.toNat / 4096 ≤ v → v < a.toNat / 4096 + n →
      vm.entry pt v &&& pteV ≠ 0 ∧ pteFlags (vm.entry pt v) ≠ pteV) :
    wp (uvmunmapLoop L pt stop doFree rounds a)
      (fun _ vm' => Unmapped pt doFree (a.toNat / 4096) n vm vm') (fun _ => ¬ strict) vm := by
  induction rounds generalizing a n vm with
  | zero =>
    rw [uvmunmapLoop]
    split_ifs with more
    · intro holds
      have := enough holds
      rw [UInt64.lt_iff_toNat_lt] at more
      omega
    · rw [UInt64.lt_iff_toNat_lt] at more
      obtain rfl : n = 0 := by omega
      exact Unmapped.nil inner
  | succ _ ih =>
    rw [uvmunmapLoop]
    split_ifs with more
    · have insideHere : a < maxva := UInt64.lt_of_lt_of_le more lt
      rw [UInt64.lt_iff_toNat_lt] at more
      rw [UInt64.le_iff_toNat_le] at lt
      have bound : maxva.toNat = 0x4000000000 := rfl
      obtain ⟨m, rfl⟩ : ∃ m, n = m + 1 := ⟨n - 1, by omega⟩
      have next : (a + pgsize).toNat = a.toNat + 4096 := by
        change (a.toNat + 4096) % 2 ^ 64 = _
        omega
      have nextPage : (a + pgsize).toNat / 4096 = a.toNat / 4096 + 1 := by omega
      rw [wp_bind, wp_ok (walk_lookup insideHere)]
      cases place : sv39.leafPage vm.mem 2 pt (a.toNat / 4096) with
      | none =>
        intro holds
        have valid := (leaves holds _ le_rfl (by omega)).1
        rw [Vm.entry, Format.entry, place] at valid
        exact valid (show (0 : UInt64) &&& pteV = 0 by decide)
      | some leaf =>
        have word : vm.mem leaf (px 0 a) = vm.entry pt (a.toNat / 4096) :=
          load_entry (leaf, px 0 a) place rfl
        change wp (loadPte (leaf, px 0 a) >>= _) _ _ _
        change wp (if vm.mem leaf (px 0 a) &&& pteV = 0 then _ else _) _ _ _
        rw [word]
        split
        · rename_i invalid
          intro holds
          exact (leaves holds _ le_rfl (by omega)).1 invalid
        split
        · rename_i notLeaf
          intro holds
          exact (leaves holds _ le_rfl (by omega)).2 notLeaf
        rw [freedPages_succ, tally_append, add_right_comm] at sep
        apply wp_seq (unmapEntry_spec (leaf, px 0 a) sep.left inner insideHere place rfl
          fun pa isOk refused holds => refused (accepted holds pa isOk))
        intro _ vm1 head
        have sep1 := (head.moves.add _).separate sep
        have later : freedPages (vm.entry pt) doFree (a.toNat / 4096 + 1) m =
            freedPages (vm1.entry pt) doFree (a.toNat / 4096 + 1) m := by
          apply freedPages_congr
          intro v low high
          rw [head.entry v (by omega), if_neg (by omega)]
        rw [later, add_comm, ← nextPage] at sep1
        have aligned1 : Aligned (a + pgsize) := by
          rw [Aligned] at aligned ⊢
          omega
        apply wp_imp (ih sep1 head.inner aligned1 (by omega)
          (fun holds => by have := enough holds; omega) _)
        · intro _ _ tail
          rw [nextPage] at tail
          exact head.cons (by omega) tail
        · intro holds v _ _
          rw [head.entry v (by omega), if_neg (by omega)]
          exact leaves holds v (by omega) (by omega)
    · rw [UInt64.lt_iff_toNat_lt] at more
      obtain rfl : n = 0 := by omega
      exact Unmapped.nil inner

/-- `uvmunmap` of a range below `MAXVA`. -/
theorem uvmunmap_spec {npages : UInt64}
    (sep : Separate ok vm (tally (freedPages (vm.entry pt) doFree (va.toNat / 4096)
      npages.toNat) + tally (vm.tablePages pt)))
    (inner : sv39.Inner Pointer vm.mem 2 pt) (aligned : strict → Aligned va)
    (lt : va.toNat + npages.toNat * 4096 ≤ maxva.toNat)
    (leaves : strict → ∀ v, va.toNat / 4096 ≤ v → v < va.toNat / 4096 + npages.toNat →
      vm.entry pt v &&& pteV ≠ 0 ∧ pteFlags (vm.entry pt v) ≠ pteV) :
    wp (uvmunmap L pt va npages doFree)
      (fun _ vm' => Unmapped pt doFree (va.toNat / 4096) npages.toNat vm vm')
      (fun _ => ¬ strict) vm := by
  rw [uvmunmap]
  split_ifs with unaligned
  · intro holds
    exact unaligned (aligned_iff.mpr (aligned holds))
  have stop : (va + npages * pgsize).toNat = va.toNat + npages.toNat * 4096 := by
    change _ ≤ 0x4000000000 at lt
    change (va.toNat + npages.toNat * 4096 % 2 ^ 64) % 2 ^ 64 = _
    omega
  apply uvmunmapLoop_spec strict accepted sep inner (aligned_iff.mp (not_not.mp unaligned)) stop
  · rw [UInt64.le_iff_toNat_le, stop]
    exact lt
  · exact fun _ => le_rfl
  · exact leaves

end Uvmunmap

/-! ### uvmcreate -/

/-- A page table of one page without a valid entry. -/
structure EmptyTable (pt : UInt64) (vm vm' : Vm) : Prop where
  moves : Moves 0 (tally (vm'.tablePages pt)) vm vm'
  inner : sv39.Inner Pointer vm'.mem 2 pt
  entry : ∀ v, vm'.entry pt v = 0

theorem uvmcreate_spec :
    wp uvmcreate (fun made vm' => match made with
      | none => vm' = vm
      | some pt => EmptyTable pt vm vm') fail vm := by
  rw [uvmcreate, wp_bind]
  apply wp_kalloc
  · intro _
    rfl
  intro r rest free
  have blank : ∀ i, update (takePage vm r rest).mem r (fun _ => 0) r i = sv39.blank := by
    intro i
    rw [update_self]
    rfl
  refine ⟨?_, Format.inner_blank (.inl rfl) blank, fun v => Format.entry_blank blank v⟩
  rw [Vm.tablePages, Format.pages_blank blank, ← zero_add (tally [r])]
  apply Moves.alloc free rfl
  intro p ne
  change update _ r _ p = _
  rw [update_of_ne ne, takePage_mem_of_ne ne]

/-! ### Page tables as finite maps -/

/-- What an entry says: nothing, or a physical page and the flags. -/
def decodePte (pte : UInt64) : Option (UInt64 × UInt64) :=
  if pte &&& pteV ≠ 0 then some (pte2pa pte, pteFlags pte) else none

/-- The mapping of a virtual page, read with `walk(pagetable, va, 0)`. -/
def Vm.mapping (vm : Vm) (pt : UInt64) (v : Nat) : Option (UInt64 × UInt64) :=
  match walk pt (UInt64.ofNat (v * 4096)) false vm with
  | .ok (some ptr, _) => decodePte (vm.mem ptr.1 ptr.2)
  | _ => none

/-- A partial map from virtual pages to physical pages and flags. -/
abbrev PageMap := Nat → Option (UInt64 × UInt64)

/-- Calls on one page table, and what the rest of the kernel does meanwhile. -/
inductive MapCall where
  | mappages (va size pa perm : UInt64)
  | uvmunmap (va npages : UInt64) (doFree : Bool)
  | elsewhere (vm : Vm)

def PageMap.apply (m : PageMap) : MapCall → PageMap
  | .mappages va size pa perm => fun v =>
    if va.toNat / 4096 ≤ v ∧ v < va.toNat / 4096 + size.toNat / 4096 then
      some (pa + UInt64.ofNat ((v - va.toNat / 4096) * 4096), perm ||| pteV)
    else m v
  | .uvmunmap va npages _ => fun v =>
    if va.toNat / 4096 ≤ v ∧ v < va.toNat / 4096 + npages.toNat then none else m v
  | .elsewhere _ => m

/-- The address a user may reach through a mapping: its page if it has V and U,
0 otherwise. -/
def userAddress : Option (UInt64 × UInt64) → UInt64
  | some (pa, flags) => if flags &&& pteV ≠ 0 ∧ flags &&& pteU ≠ 0 then pa else 0
  | none => 0

/-- Physical memory and the page table under consideration. -/
structure MapSys where
  vm : Vm
  pagetable : UInt64

namespace MapSys

def step (L : Layout) (s : MapSys) : MapCall → Option MapSys
  | .mappages va size pa perm =>
    match mappages s.pagetable va size pa perm s.vm with
    | .ok (true, vm) => some { s with vm := vm }
    | _ => none
  | .uvmunmap va npages doFree =>
    match uvmunmap L s.pagetable va npages doFree s.vm with
    | .ok ((), vm) => some { s with vm := vm }
    | .error _ => none
  | .elsewhere vm => some { s with vm := vm }

/-- The calls on the page table together with their meaning for the map. -/
def trace (L : Layout) (s : MapSys × PageMap) (call : MapCall) : Option (MapSys × PageMap) :=
  (s.1.step L call).map (·, s.2.apply call)

/-- The next pages that `kalloc` returns are not in use by the page table. -/
structure Fresh (s : MapSys) : Prop where
  nodup : s.vm.freelist.Nodup
  aligned : ∀ p ∈ s.vm.freelist, Aligned p
  unused : ∀ p ∈ s.vm.freelist, p ∉ s.vm.tablePages s.pagetable

/-- A page is mapped with flags in ten bits, while `kalloc` returns fresh pages. -/
def MayMap (s : MapSys) (pa perm : UInt64) : Prop := s.Fresh ∧ Aligned pa ∧ perm.toNat < 1024

/-- A range below `MAXVA` is unmapped, and the pages handed to `kfree` are not in use elsewhere. -/
def MayUnmap (s : MapSys) (va npages : UInt64) (doFree : Bool) : Prop :=
  s.Fresh ∧ va.toNat + npages.toNat * 4096 ≤ maxva.toNat ∧
    (s.vm.freelist ++
      freedPages (s.vm.entry s.pagetable) doFree (va.toNat / 4096) npages.toNat).Nodup ∧
    ∀ p ∈ freedPages (s.vm.entry s.pagetable) doFree (va.toNat / 4096) npages.toNat,
      p ∉ s.vm.tablePages s.pagetable

/-- The arguments are those of the interface, and the allocator keeps to unused pages. -/
def Allowed (s : MapSys × PageMap) : MapCall → Prop
  | .mappages _ _ pa perm => s.1.MayMap pa perm
  | .uvmunmap va npages doFree => s.1.MayUnmap va npages doFree
  | .elsewhere vm => ∀ p ∈ s.1.vm.tablePages s.1.pagetable, vm.mem p = s.1.vm.mem p

end MapSys

theorem decodePte_zero : decodePte 0 = none := rfl

theorem decodePte_encode {perm : UInt64} (aligned : Aligned pa) (bits : perm.toNat < 1024) :
    decodePte (pa2pte pa ||| perm ||| pteV) = some (pa, perm ||| pteV) := by
  have wide : (perm ||| pteV).toNat < 1024 := by
    exact Nat.or_lt_two_pow (show _ < 2 ^ 10 from bits) (by decide)
  have valid : (perm ||| pteV) &&& pteV ≠ 0 := or_and_ne_zero_right (by decide)
  rw [UInt64.or_assoc, decodePte, if_pos (encode_valid pa wide valid), pte2pa_encode aligned wide,
    pteFlags_encode pa wide]

/-- Reading with `walk` gives the entry. -/
theorem mapping_eq (vm : Vm) (pt : UInt64) {v : Nat} (small : v < 2 ^ 26) :
    vm.mapping pt v = decodePte (vm.entry pt v) := by
  have whole : (UInt64.ofNat (v * 4096)).toNat = v * 4096 := by
    rw [UInt64.toNat_ofNat', Nat.mod_eq_of_lt (by omega)]
  have page : (UInt64.ofNat (v * 4096)).toNat / 4096 = v := by omega
  have lt : UInt64.ofNat (v * 4096) < maxva := by
    rw [UInt64.lt_iff_toNat_lt, whole]
    change _ < 0x4000000000
    omega
  rw [Vm.mapping, walk_lookup lt, page]
  cases place : sv39.leafPage vm.mem 2 pt v with
  | none =>
    rw [Vm.entry, Format.entry, place]
    exact decodePte_zero.symm
  | some leaf =>
    rw [← page] at place
    have word := load_entry (leaf, px 0 (UInt64.ofNat (v * 4096))) place rfl
    rw [page] at word
    exact congrArg decodePte word

theorem userAddress_decode (pte : UInt64) :
    userAddress (decodePte pte) =
      if pte &&& pteV = 0 then 0 else if pte &&& pteU = 0 then 0 else pte2pa pte := by
  rw [decodePte]
  by_cases invalid : pte &&& pteV = 0
  · rw [if_neg (not_not.mpr invalid), if_pos invalid]
    rfl
  rw [if_pos invalid, if_neg invalid, userAddress, ← and_flag (by decide), ← and_flag (by decide)]
  by_cases kernelOnly : pte &&& pteU = 0
  · rw [if_neg (fun both => both.2 kernelOnly), if_pos kernelOnly]
  · rw [if_pos ⟨invalid, kernelOnly⟩, if_neg kernelOnly]

/-- `walkaddr` of an address below `MAXVA`. -/
theorem walkaddr_eq (vm : Vm) (pt : UInt64) (lt : va < maxva) :
    walkaddr pt va vm =
      .ok (userAddress (decodePte (vm.entry pt (va.toNat / 4096))), vm) := by
  rw [walkaddr, if_neg (UInt64.not_le.mpr lt), userAddress_decode]
  simp only [bind, StateT.bind, walk_lookup lt, Except.bind]
  cases place : sv39.leafPage vm.mem 2 pt (va.toNat / 4096) with
  | none =>
    have blank : vm.entry pt (va.toNat / 4096) = 0 := by
      rw [Vm.entry, Format.entry, place]
      rfl
    rw [blank]
    rfl
  | some leaf =>
    rw [← load_entry (leaf, px 0 va) place rfl]
    change (if vm.mem leaf (px 0 va) &&& pteV = 0 then _ else _ : VmM _) vm = _
    split
    · rfl
    split
    · rfl
    · rfl

/-! ### The refinement -/

/-- The state of a page table that represents a map. -/
structure Represents (s : MapSys) (m : PageMap) : Prop where
  inner : sv39.Inner Pointer s.vm.mem 2 s.pagetable
  nodup : (s.vm.tablePages s.pagetable).Nodup
  aligned : ∀ p ∈ s.vm.tablePages s.pagetable, Aligned p
  entry : ∀ v < 2 ^ 27, decodePte (s.vm.entry s.pagetable v) = m v

namespace Represents

variable {L : Layout} {s next : MapSys} {m : PageMap}

theorem separate (represents : Represents s m) (fresh : s.Fresh) :
    Separate Aligned s.vm (tally (s.vm.tablePages s.pagetable)) := by
  constructor
  · intro p
    have free := List.nodup_iff_count_le_one.mp fresh.nodup p
    have used := List.nodup_iff_count_le_one.mp represents.nodup p
    by_cases member : p ∈ s.vm.freelist
    · have none := List.count_eq_zero.mpr (fresh.unused p member)
      simp only [tally]
      omega
    · have none := List.count_eq_zero.mpr member
      simp only [tally]
      omega
  intro p here
  by_cases member : p ∈ s.vm.freelist
  · exact fresh.aligned p member
  apply represents.aligned p
  have none := List.count_eq_zero.mpr member
  simp only [tally] at here ⊢
  exact List.count_pos_iff.mp (by omega)

/-- The same with pages that the table maps and that are given back. -/
theorem separate_freed {freed : List UInt64} (represents : Represents s m) (fresh : s.Fresh)
    (apart : (s.vm.freelist ++ freed).Nodup)
    (unused : ∀ p ∈ freed, p ∉ s.vm.tablePages s.pagetable) (aligned : ∀ p ∈ freed, Aligned p) :
    Separate Aligned s.vm (tally freed + tally (s.vm.tablePages s.pagetable)) := by
  have sep := represents.separate fresh
  constructor
  · intro p
    have single := sep.single p
    have other := List.nodup_iff_count_le_one.mp apart p
    rw [List.count_append] at other
    simp only [tally, Pi.add_apply] at single ⊢
    by_cases member : p ∈ freed
    · have none := List.count_eq_zero.mpr (unused p member)
      omega
    · have none := List.count_eq_zero.mpr member
      omega
  intro p here
  by_cases member : p ∈ freed
  · exact aligned p member
  apply sep.good p
  have none := List.count_eq_zero.mpr member
  simp only [tally, Pi.add_apply] at here ⊢
  omega

theorem of_separate (sep : Separate Aligned vm (tally (vm.tablePages pt)))
    (inner : sv39.Inner Pointer vm.mem 2 pt)
    (entry : ∀ v < 2 ^ 27, decodePte (vm.entry pt v) = m v) : Represents ⟨vm, pt⟩ m :=
  ⟨inner, sep.nodup, fun p member => sep.good p (Nat.add_pos_right _ (tally_pos.mpr member)), entry⟩

/-- A new page table represents the empty map. -/
theorem uvmcreate (nodup : vm.freelist.Nodup)
    (aligned : ∀ p ∈ vm.freelist, Aligned p) (made : uvmcreate vm = .ok (some pt, vm')) :
    Represents ⟨vm', pt⟩ fun _ => none := by
  have spec : wp CustomXv6.uvmcreate _ (fun _ => True) vm := uvmcreate_spec
  have empty := wp_run spec made
  have pre : Separate Aligned vm 0 :=
    ⟨fun p => List.nodup_iff_count_le_one.mp nodup p, fun p here => aligned p (tally_pos.mp here)⟩
  apply of_separate (empty.moves.separate pre) empty.inner
  intro v _
  rw [empty.entry]
  rfl

/-- A successful `mappages` adds its range. -/
theorem mappages {size perm : UInt64} (represents : Represents s m) (fresh : s.Fresh)
    (aligned : Aligned pa) (bits : perm.toNat < 1024)
    (ran : s.step L (.mappages va size pa perm) = some next) :
    Represents next (m.apply (.mappages va size pa perm)) := by
  rw [MapSys.step] at ran
  split at ran
  · rename_i vm' run
    cases ran
    have sep := represents.separate fresh
    have mapped := wp_run (mappages_spec (fun _ isAligned => isAligned) sep represents.inner)
      run rfl
    apply of_separate (mapped.separate sep) mapped.inner
    intro v small
    rw [mapped.entry v small, mappedEntries]
    change _ = if va.toNat / 4096 ≤ v ∧ v < va.toNat / 4096 + size.toNat / 4096 then _ else m v
    split
    · apply decodePte_encode _ bits
      rw [Aligned] at aligned ⊢
      rw [UInt64.toNat_add, UInt64.toNat_ofNat']
      omega
    · exact represents.entry v small
  · cases ran

/-- `uvmunmap` removes its range. -/
theorem uvmunmap {npages : UInt64} {doFree : Bool} (represents : Represents s m) (fresh : s.Fresh)
    (lt : va.toNat + npages.toNat * 4096 ≤ maxva.toNat)
    (apart : (s.vm.freelist ++ freedPages (s.vm.entry s.pagetable) doFree (va.toNat / 4096)
      npages.toNat).Nodup)
    (unused : ∀ p ∈ freedPages (s.vm.entry s.pagetable) doFree (va.toNat / 4096) npages.toNat,
      p ∉ s.vm.tablePages s.pagetable) (ran : s.step L (.uvmunmap va npages doFree) = some next) :
    Represents next (m.apply (.uvmunmap va npages doFree)) := by
  rw [MapSys.step] at ran
  split at ran
  · rename_i vm' run
    cases ran
    have sep := represents.separate_freed fresh apart unused (aligned_freedPages _ _ _ _)
    have spec := uvmunmap_spec (L := L) False (fun absurd => absurd.elim) sep
      represents.inner (fun absurd => absurd.elim) lt (fun absurd => absurd.elim)
    have unmapped := wp_run spec run
    apply of_separate (unmapped.moves.separate sep) unmapped.inner
    intro v small
    rw [unmapped.entry v small]
    change _ = if va.toNat / 4096 ≤ v ∧ v < va.toNat / 4096 + npages.toNat then _ else m v
    split
    · exact decodePte_zero
    · exact represents.entry v small
  · cases ran

/-- The rest of the kernel does not change the map. -/
theorem elsewhere (represents : Represents s m)
    (agree : ∀ p ∈ s.vm.tablePages s.pagetable, vm.mem p = s.vm.mem p) :
    Represents { s with vm := vm } m := by
  have same := Format.same_congr agree
  have pages : vm.tablePages s.pagetable = s.vm.tablePages s.pagetable := same.pages
  constructor
  · exact same.inner Pointer represents.inner
  · change (vm.tablePages s.pagetable).Nodup
    rw [pages]
    exact represents.nodup
  · change ∀ p ∈ vm.tablePages s.pagetable, Aligned p
    rw [pages]
    exact represents.aligned
  · intro v small
    rw [← represents.entry v small]
    exact congrArg decodePte (Format.entry_congr agree v)

end Represents

/-- A page table made by `uvmcreate` is a finite map under every sequence of
successful calls: `mappages` adds exactly its range, `uvmunmap` removes exactly
its range, and `walkaddr` returns the page of an entry with V and U. -/
theorem pageTable_refines (L : Layout) {vm vm' : Vm} {pt : UInt64}
    (nodup : vm.freelist.Nodup) (aligned : ∀ p ∈ vm.freelist, Aligned p)
    (made : uvmcreate vm = .ok (some pt, vm')) {s : MapSys × PageMap}
    (run : Run (MapSys.trace L) MapSys.Allowed (⟨vm', pt⟩, fun _ => none) s) :
    (∀ v < 2 ^ 26, s.1.vm.mapping s.1.pagetable v = s.2 v) ∧
      ∀ va < maxva, walkaddr s.1.pagetable va s.1.vm =
        .ok (userAddress (s.2 (va.toNat / 4096)), s.1.vm) := by
  have represents : Represents s.1 s.2 := by
    apply run.invariant (P := fun s => Represents s.1 s.2)
    · exact Represents.uvmcreate nodup aligned made
    intro _ call _ pre allowed ran
    obtain ⟨_, inner, rfl⟩ := Option.map_eq_some_iff.mp ran
    cases call with
    | mappages =>
      obtain ⟨fresh, paAligned, bits⟩ := allowed
      exact pre.mappages fresh paAligned bits inner
    | uvmunmap =>
      obtain ⟨fresh, lt, apart, unused⟩ := allowed
      exact pre.uvmunmap fresh lt apart unused inner
    | elsewhere =>
      cases inner
      exact pre.elsewhere allowed
  constructor
  · intro v small
    rw [mapping_eq _ _ small]
    exact represents.entry v (by omega)
  · intro _ lt
    rw [walkaddr_eq _ _ lt, represents.entry _ (page_lt lt)]

/-! ### A page table of two pages -/

instance (a : UInt64) : Decidable (Aligned a) := inferInstanceAs (Decidable (_ = _))

-- A test of all words of a list goes through the list, not through all words.
instance decidableAllPages (l : List UInt64) (P : UInt64 → Prop) [DecidablePred P] :
    Decidable (∀ p ∈ l, P p) :=
  List.decidableBAll P l

instance (s : MapSys) : Decidable s.Fresh :=
  decidable_of_iff (s.vm.freelist.Nodup ∧ (∀ p ∈ s.vm.freelist, Aligned p) ∧
      ∀ p ∈ s.vm.freelist, p ∉ s.vm.tablePages s.pagetable)
    ⟨fun all => ⟨all.1, all.2.1, all.2.2⟩, fun fresh => ⟨fresh.nodup, fresh.aligned, fresh.unused⟩⟩

def smallLayout : Layout where
  kend := phystop - 16 * pgsize
  trampoline := kernbase
  kend_low := by decide
  trampoline_aligned := by decide
  trampoline_inside := by decide
  kend_high := by decide

/-- The page number `k` above `end`. -/
def samplePage (k : UInt64) : UInt64 := smallLayout.kend + k * pgsize

instance (s : MapSys) (pa perm : UInt64) : Decidable (s.MayMap pa perm) :=
  inferInstanceAs (Decidable (_ ∧ _))

instance (s : MapSys) (va npages : UInt64) (doFree : Bool) :
    Decidable (s.MayUnmap va npages doFree) := inferInstanceAs (Decidable (_ ∧ _))

/-- `Allowed`, as a test, for the calls that do not leave the page table to others. -/
def MapSys.allowed (s : MapSys × PageMap) : MapCall → Bool
  | .mappages _ _ pa perm => decide (s.1.MayMap pa perm)
  | .uvmunmap va npages doFree => decide (s.1.MayUnmap va npages doFree)
  | .elsewhere _ => false

theorem MapSys.allowed_sound (s : MapSys × PageMap) (call : MapCall)
    (tested : MapSys.allowed s call = true) : MapSys.Allowed s call := by
  cases call with
  | mappages _ _ pa perm =>
    have holds : s.1.MayMap pa perm := of_decide_eq_true tested
    exact holds
  | uvmunmap va npages doFree =>
    have holds : s.1.MayUnmap va npages doFree := of_decide_eq_true tested
    exact holds
  | elsewhere => cases tested

/-- Two pages are mapped and the first of them is unmapped and freed. -/
theorem pageTable_refines_two_pages :
    ∃ s : MapSys × PageMap,
      s.1.vm.mapping s.1.pagetable 5 = none ∧
      walkaddr s.1.pagetable 0x6123 s.1.vm = .ok (samplePage 9, s.1.vm) := by
  let vm : Vm := ⟨[samplePage 0, samplePage 1, samplePage 2], fun _ _ => 0⟩
  obtain ⟨s, tested, first, second⟩ := exists_run_of_runChecked (MapSys.trace smallLayout)
    (fun s call => MapSys.allowed s call = true)
    (⟨⟨[samplePage 1, samplePage 2], update (takePage vm (samplePage 0) [samplePage 1,
      samplePage 2]).mem (samplePage 0) fun _ => 0⟩, samplePage 0⟩, fun _ => none)
    [.mappages 0x5000 0x2000 (samplePage 8) (pteR ||| pteU), .uvmunmap 0x5000 1 true]
    (P := fun s => s.2 5 = none ∧ s.2 6 = some (samplePage 9, pteR ||| pteU ||| pteV))
    (by decide +kernel)
  have refined := @pageTable_refines smallLayout vm _ _ (by decide) (by decide) rfl s
    (tested.mono MapSys.allowed_sound)
  refine ⟨s, ?_, ?_⟩
  · rw [refined.1 5 (by decide), first]
  · rw [refined.2 0x6123 (by decide)]
    change Except.ok (userAddress (s.2 6), _) = _
    rw [second]
    rfl

end CustomXv6

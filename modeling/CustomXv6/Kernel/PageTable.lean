/-
Module: CustomXv6.Kernel.PageTable
Purpose: The page allocator (kernel/kalloc.c) and the page tables of kernel/vm.c.
Trusted boundary: human-reviewed spec
Main exports: Vm, kalloc, walk, mappages, uvmunmap, uvmcopy
-/
import CustomXv6.Lib.Hoare
import CustomXv6.Lib.PageHeap
import CustomXv6.Lib.RadixTree
import Mathlib.Data.Nat.Bitwise

namespace CustomXv6

open PageHeap RadixTree
open Function

/-!
A page is named by its physical address and holds 512 words of 64 bits.  The links of the free
list are kept in the list itself.  The bytes of user pages are never read by the functions
below; where they are written, the new contents are a parameter.
-/

/-- `kmem.freelist` and the contents of physical memory. -/
abbrev Vm := Heap UInt64 (Nat → UInt64)

/-- The calls of `panic`, and three ways in which the functions could go wrong
without one: a null pointer is used, `freewalk` descends below the third level,
a loop makes more rounds than its bounds allow. -/
inductive VmPanic where
  /-- `walk` -/
  | walk
  /-- `mappages: va not aligned` -/
  | mappagesVa
  /-- `mappages: size not aligned` -/
  | mappagesSizeAlign
  /-- `mappages: size` -/
  | mappagesSize
  /-- `mappages: remap` -/
  | remap
  /-- `uvmunmap: not aligned` -/
  | uvmunmapAlign
  /-- `uvmunmap: walk` -/
  | uvmunmapWalk
  /-- `uvmunmap: not mapped` -/
  | uvmunmapNotMapped
  /-- `uvmunmap: not a leaf` -/
  | uvmunmapNotLeaf
  /-- `uvmfirst: more than a page` -/
  | uvmfirst
  /-- `freewalk: leaf` -/
  | freewalkLeaf
  /-- `uvmcopy: pte should exist` -/
  | uvmcopyPte
  /-- `uvmcopy: page not present` -/
  | uvmcopyPresent
  /-- `uvmclear` -/
  | uvmclear
  /-- `kfree` -/
  | kfree
  /-- `loadseg: address should exist` -/
  | loadseg
  | nullPointer
  | tooDeep
  | unbounded
deriving Repr, DecidableEq

/-- Code that works on physical memory and may panic. -/
abbrev VmM := StateT Vm (Except VmPanic)

/-! ### Constants and macros of riscv.h and memlayout.h -/

def pgsize : UInt64 := 4096

/-- The number of entries of a page-table page.  Irreducible, so that loops over
the entries are not unrolled. -/
@[irreducible] def nptes : Nat := 512

theorem nptes_eq : nptes = 512 := by unfold nptes; rfl

def maxva : UInt64 := 0x4000000000

def kernbase : UInt64 := 0x80000000

def phystop : UInt64 := kernbase + 128 * 1024 * 1024

def trampolineVa : UInt64 := maxva - pgsize

def trapframeVa : UInt64 := trampolineVa - pgsize

def pteV : UInt64 := 1

def pteR : UInt64 := 2

def pteW : UInt64 := 4

def pteX : UInt64 := 8

def pteU : UInt64 := 16

def pgroundup (sz : UInt64) : UInt64 := (sz + pgsize - 1) &&& ~~~ (pgsize - 1)

def pgrounddown (a : UInt64) : UInt64 := a &&& ~~~ (pgsize - 1)

def pa2pte (pa : UInt64) : UInt64 := (pa >>> 12) <<< 10

def pte2pa (pte : UInt64) : UInt64 := (pte >>> 10) <<< 12

def pteFlags (pte : UInt64) : UInt64 := pte &&& 0x3FF

/-- `PX`: the index into the page table of a level. -/
def px (level : Nat) (va : UInt64) : Nat := ((va >>> UInt64.ofNat (12 + 9 * level)) &&& 0x1FF).toNat

/-- A `uint64` stored in an `int` and passed on as a `uint64` again. -/
def throughInt (x : UInt64) : UInt64 :=
  let low := x &&& 0xFFFFFFFF
  if low < 0x80000000 then low else low ||| 0xFFFFFFFF00000000

/-- Two addresses the linker fixes: `end`, the first one after the kernel, and
the page of the trampoline code inside it. -/
structure Layout where
  kend : UInt64
  trampoline : UInt64
  kend_low : kernbase ≤ kend
  trampoline_aligned : trampoline % pgsize = 0
  trampoline_inside : trampoline < kend
  kend_high : kend ≤ phystop

/-! ### kalloc.c -/

/-- `memset` or `memmove` over a whole page. -/
def fill (page : UInt64) (words : Nat → UInt64) : VmM Unit :=
  modify fun vm => { vm with mem := update vm.mem page words }

def kalloc : VmM (Option UInt64) := do
  let vm ← get
  match vm.freelist with
  | [] => pure none
  | r :: rest =>
    set { vm with freelist := rest }
    fill r fun _ => 0x0505050505050505
    pure (some r)

def kfree (L : Layout) (pa : UInt64) : VmM Unit :=
  if pa % pgsize ≠ 0 ∨ pa < L.kend ∨ phystop ≤ pa then throw .kfree
  else do
    fill pa fun _ => 0x0101010101010101
    modify fun vm => { vm with freelist := pa :: vm.freelist }

/-! ### vm.c -/

/-- A pointer to a page-table entry: the page-table page and the index in it. -/
abbrev PtePtr := UInt64 × Nat

def loadPte (pte : PtePtr) : VmM UInt64 := do
  let vm ← get
  pure (vm.mem pte.1 pte.2)

def storePte (pte : PtePtr) (value : UInt64) : VmM Unit :=
  modify fun vm => { vm with mem := setWord vm.mem pte.1 pte.2 value }

/-- The loop of `walk` from a level on. -/
def walkFrom (va : UInt64) (alloc : Bool) : Nat → UInt64 → VmM (Option PtePtr)
  | 0, pagetable => pure (some (pagetable, px 0 va))
  | level + 1, pagetable => do
    let pte ← loadPte (pagetable, px (level + 1) va)
    if pte &&& pteV ≠ 0 then walkFrom va alloc level (pte2pa pte)
    else if alloc then
      match ← kalloc with
      | none => pure none
      | some page =>
        fill page fun _ => 0
        storePte (pagetable, px (level + 1) va) (pa2pte page ||| pteV)
        walkFrom va alloc level page
    else pure none

def walk (pagetable va : UInt64) (alloc : Bool) : VmM (Option PtePtr) :=
  if maxva ≤ va then throw .walk else walkFrom va alloc 2 pagetable

def walkaddr (pagetable va : UInt64) : VmM UInt64 :=
  if maxva ≤ va then pure 0
  else do
    match ← walk pagetable va false with
    | none => pure 0
    | some ptr =>
      let pte ← loadPte ptr
      if pte &&& pteV = 0 then pure 0
      else if pte &&& pteU = 0 then pure 0
      else pure (pte2pa pte)

/-- The loop of `mappages`, which leaves when it has mapped the page at `last`. -/
def mappagesLoop (pagetable last perm : UInt64) : Nat → UInt64 → UInt64 → VmM Bool
  | 0, _, _ => throw .unbounded
  | rounds + 1, a, pa => do
    match ← walk pagetable a true with
    | none => pure false
    | some ptr =>
      let pte ← loadPte ptr
      if pte &&& pteV ≠ 0 then throw .remap
      else
        storePte ptr (pa2pte pa ||| perm ||| pteV)
        if a = last then pure true
        else mappagesLoop pagetable last perm rounds (a + pgsize) (pa + pgsize)

/-- `mappages`; `true` is the return value 0 and `false` is -1. -/
def mappages (pagetable va size pa perm : UInt64) : VmM Bool :=
  if va % pgsize ≠ 0 then throw .mappagesVa
  else if size % pgsize ≠ 0 then throw .mappagesSizeAlign
  else if size = 0 then throw .mappagesSize
  else mappagesLoop pagetable (va + size - pgsize) perm (size.toNat / 4096) va pa

/-- What a round of `uvmunmap` does with an entry that passes its checks. -/
def unmapEntry (L : Layout) (doFree : Bool) (ptr : PtePtr) (pte : UInt64) : VmM Unit := do
  if doFree then kfree L (pte2pa pte)
  storePte ptr 0

def uvmunmapLoop (L : Layout) (pagetable stop : UInt64) (doFree : Bool) : Nat → UInt64 → VmM Unit
  | 0, a => if a < stop then throw .unbounded else pure ()
  | rounds + 1, a =>
    if a < stop then do
      match ← walk pagetable a false with
      | none => throw .uvmunmapWalk
      | some ptr =>
        let pte ← loadPte ptr
        if pte &&& pteV = 0 then throw .uvmunmapNotMapped
        else if pteFlags pte = pteV then throw .uvmunmapNotLeaf
        else
          unmapEntry L doFree ptr pte
          uvmunmapLoop L pagetable stop doFree rounds (a + pgsize)
    else pure ()

def uvmunmap (L : Layout) (pagetable va npages : UInt64) (doFree : Bool) : VmM Unit :=
  if va % pgsize ≠ 0 then throw .uvmunmapAlign
  else uvmunmapLoop L pagetable (va + npages * pgsize) doFree npages.toNat va

def uvmcreate : VmM (Option UInt64) := do
  match ← kalloc with
  | none => pure none
  | some pagetable =>
    fill pagetable fun _ => 0
    pure (some pagetable)

/-- `uvmfirst`, with the contents of the page after the copy of `initcode`.  It
ignores what `mappages` returns; that is its result here. -/
def uvmfirst (pagetable : UInt64) (code : Nat → UInt64) (sz : UInt64) : VmM Bool :=
  if pgsize ≤ sz then throw .uvmfirst
  else do
    match ← kalloc with
    | none => throw .nullPointer
    | some mem =>
      fill mem fun _ => 0
      let mapped ← mappages pagetable 0 pgsize mem (pteW ||| pteR ||| pteX ||| pteU)
      fill mem code
      pure mapped

def uvmdealloc (L : Layout) (pagetable oldsz newsz : UInt64) : VmM UInt64 :=
  if oldsz ≤ newsz then pure oldsz
  else do
    if pgroundup newsz < pgroundup oldsz then
      uvmunmap L pagetable (pgroundup newsz)
        (throughInt ((pgroundup oldsz - pgroundup newsz) / pgsize)) true
    pure newsz

def uvmallocLoop (L : Layout) (pagetable oldsz newsz xperm : UInt64) : Nat → UInt64 → VmM UInt64
  | 0, a => if a < newsz then throw .unbounded else pure newsz
  | rounds + 1, a =>
    if a < newsz then do
      match ← kalloc with
      | none =>
        let _ ← uvmdealloc L pagetable a oldsz
        pure 0
      | some mem =>
        fill mem fun _ => 0
        if ← mappages pagetable a pgsize mem (pteR ||| pteU ||| xperm) then
          uvmallocLoop L pagetable oldsz newsz xperm rounds (a + pgsize)
        else
          kfree L mem
          let _ ← uvmdealloc L pagetable a oldsz
          pure 0
    else pure newsz

def uvmalloc (L : Layout) (pagetable oldsz newsz xperm : UInt64) : VmM UInt64 :=
  if newsz < oldsz then pure oldsz
  else
    uvmallocLoop L pagetable (pgroundup oldsz) newsz xperm (newsz.toNat / 4096 + 1)
      (pgroundup oldsz)

/-- `freewalk`, for a table of at most `depth` levels. -/
def freewalk (L : Layout) : Nat → UInt64 → VmM Unit
  | 0, _ => throw .tooDeep
  | depth + 1, pagetable => do
    (List.range nptes).forM fun i => do
      let pte ← loadPte (pagetable, i)
      if pte &&& pteV ≠ 0 ∧ pte &&& (pteR ||| pteW ||| pteX) = 0 then
        freewalk L depth (pte2pa pte)
        storePte (pagetable, i) 0
      else if pte &&& pteV ≠ 0 then throw .freewalkLeaf
      else pure ()
    kfree L pagetable

def uvmfree (L : Layout) (pagetable sz : UInt64) : VmM Unit := do
  if 0 < sz then uvmunmap L pagetable 0 (pgroundup sz / pgsize) true
  freewalk L 3 pagetable

def uvmcopyLoop (L : Layout) (old new sz : UInt64) : Nat → UInt64 → VmM Bool
  | 0, i => if i < sz then throw .unbounded else pure true
  | rounds + 1, i =>
    if i < sz then do
      match ← walk old i false with
      | none => throw .uvmcopyPte
      | some ptr =>
        let pte ← loadPte ptr
        if pte &&& pteV = 0 then throw .uvmcopyPresent
        else
          match ← kalloc with
          | none =>
            uvmunmap L new 0 (i / pgsize) true
            pure false
          | some mem =>
            let vm ← get
            fill mem (vm.mem (pte2pa pte))
            if ← mappages new i pgsize mem (pteFlags pte) then
              uvmcopyLoop L old new sz rounds (i + pgsize)
            else
              kfree L mem
              uvmunmap L new 0 (i / pgsize) true
              pure false
    else pure true

def uvmcopy (L : Layout) (old new sz : UInt64) : VmM Bool :=
  uvmcopyLoop L old new sz (sz.toNat / 4096 + 1) 0

def uvmclear (pagetable va : UInt64) : VmM Unit := do
  match ← walk pagetable va false with
  | none => throw .uvmclear
  | some ptr =>
    let pte ← loadPte ptr
    storePte ptr (pte &&& ~~~ pteU)

/-- The loop of `copyout`.  `data` gives the contents of each user page written,
by its address. -/
def copyoutLoop (pagetable : UInt64) (data : UInt64 → Nat → UInt64) :
    Nat → UInt64 → UInt64 → VmM Bool
  | 0, _, len => if 0 < len then throw .unbounded else pure true
  | rounds + 1, dstva, len =>
    if 0 < len then
      let va0 := pgrounddown dstva
      if maxva ≤ va0 then pure false
      else do
        match ← walk pagetable va0 false with
        | none => pure false
        | some ptr =>
          let pte ← loadPte ptr
          if pte &&& pteV = 0 ∨ pte &&& pteU = 0 ∨ pte &&& pteW = 0 then pure false
          else
            let room := pgsize - (dstva - va0)
            let n := if len < room then len else room
            fill (pte2pa pte) (data va0)
            copyoutLoop pagetable data rounds (va0 + pgsize) (len - n)
    else pure true

/-- `copyout`; `true` is the return value 0 and `false` is -1. -/
def copyout (pagetable dstva : UInt64) (data : UInt64 → Nat → UInt64) (len : UInt64) : VmM Bool :=
  copyoutLoop pagetable data (len.toNat / 4096 + 2) dstva len

/-! ### The page tables of processes, from proc.c -/

/-- `proc_pagetable`, for a process with the given trapframe page. -/
def procPagetable (L : Layout) (trapframe : UInt64) : VmM (Option UInt64) := do
  match ← uvmcreate with
  | none => pure none
  | some pagetable =>
    if ← mappages pagetable trampolineVa pgsize L.trampoline (pteR ||| pteX) then
      if ← mappages pagetable trapframeVa pgsize trapframe (pteR ||| pteW) then
        pure (some pagetable)
      else
        uvmunmap L pagetable trampolineVa 1 false
        uvmfree L pagetable 0
        pure none
    else
      uvmfree L pagetable 0
      pure none

def procFreepagetable (L : Layout) (pagetable sz : UInt64) : VmM Unit := do
  uvmunmap L pagetable trampolineVa 1 false
  uvmunmap L pagetable trapframeVa 1 false
  uvmfree L pagetable sz

/-! ### Page-table entries and the tree they form -/

/-- The address of a page. -/
def Aligned (a : UInt64) : Prop := a.toNat % 4096 = 0

theorem aligned_iff {a : UInt64} : a % pgsize = 0 ↔ Aligned a := by
  rw [← UInt64.toNat_inj, UInt64.toNat_mod]
  rfl

theorem toNat_pa2pte (pa : UInt64) : (pa2pte pa).toNat = pa.toNat / 4096 * 1024 := by
  have bound := pa.toNat_lt
  rw [pa2pte, UInt64.toNat_shiftLeft, UInt64.toNat_shiftRight]
  simp only [UInt64.toNat_ofNat, Nat.reducePow, Nat.reduceMod, Nat.shiftRight_eq_div_pow,
    Nat.shiftLeft_eq]
  omega

theorem toNat_pte2pa (pte : UInt64) : (pte2pa pte).toNat = pte.toNat / 1024 * 4096 % 2 ^ 64 := by
  rw [pte2pa, UInt64.toNat_shiftLeft, UInt64.toNat_shiftRight]
  simp only [UInt64.toNat_ofNat, Nat.reducePow, Nat.reduceMod, Nat.shiftRight_eq_div_pow,
    Nat.shiftLeft_eq]

theorem aligned_pte2pa (pte : UInt64) : Aligned (pte2pa pte) := by
  rw [Aligned, toNat_pte2pa]
  omega

theorem toNat_pteFlags (pte : UInt64) : (pteFlags pte).toNat = pte.toNat % 1024 := by
  exact Nat.and_two_pow_sub_one_eq_mod pte.toNat 10

variable {flags pte : UInt64}

/-- The entry made of a page and flags. -/
theorem toNat_pteEncode (pa : UInt64) (bits : flags.toNat < 1024) :
    (pa2pte pa ||| flags).toNat = pa.toNat / 4096 * 1024 + flags.toNat := by
  rw [UInt64.toNat_or, toNat_pa2pte]
  have := Nat.shiftLeft_add_eq_or_of_lt (show flags.toNat < 2 ^ 10 from bits) (pa.toNat / 4096)
  rw [Nat.shiftLeft_eq] at this
  exact this.symm

/-- Encoding a page and decoding it again gives the page. -/
theorem pte2pa_encode {pa : UInt64} (aligned : Aligned pa) (bits : flags.toNat < 1024) :
    pte2pa (pa2pte pa ||| flags) = pa := by
  have bound := pa.toNat_lt
  rw [Aligned] at aligned
  rw [← UInt64.toNat_inj, toNat_pte2pa, toNat_pteEncode pa bits]
  omega

/-- Encoding flags and decoding them again gives the flags. -/
theorem pteFlags_encode (pa : UInt64) (bits : flags.toNat < 1024) :
    pteFlags (pa2pte pa ||| flags) = flags := by
  rw [← UInt64.toNat_inj, toNat_pteFlags, toNat_pteEncode pa bits]
  omega

/-- Flag bits are read from the flags. -/
theorem and_flag {flag : UInt64} (bits : 0x3FF &&& flag = flag) :
    pte &&& flag = pteFlags pte &&& flag := by
  rw [pteFlags, UInt64.and_assoc, bits]

theorem or_and_ne_zero_right {a b mask : UInt64} (ne0 : b &&& mask ≠ 0) :
    (a ||| b) &&& mask ≠ 0 := by
  intro zero
  apply ne0
  rw [← UInt64.toNat_inj, UInt64.toNat_and, UInt64.toNat_or, Nat.and_or_distrib_right] at zero
  rw [← UInt64.toNat_inj, UInt64.toNat_and]
  exact (Nat.or_eq_zero_iff.mp zero).2

theorem or_and_ne_zero_left {a b mask : UInt64} (ne0 : a &&& mask ≠ 0) :
    (a ||| b) &&& mask ≠ 0 := by
  rw [UInt64.or_comm]
  exact or_and_ne_zero_right ne0

/-- How `walk` reads a page-table page. -/
def sv39 : Format UInt64 UInt64 where
  width := 512
  positive := by decide
  child pte := if pte &&& pteV ≠ 0 then some (pte2pa pte) else none
  blank := 0
  blank_child := rfl

@[simp] theorem sv39_width : sv39.width = 512 := rfl

theorem sv39_child_some (valid : pte &&& pteV ≠ 0) :
    sv39.child pte = some (pte2pa pte) := if_pos valid

theorem sv39_child_none (invalid : pte &&& pteV = 0) :
    sv39.child pte = none := if_neg (not_not.mpr invalid)

/-- The index `walk` uses at a level is the digit of the page number. -/
theorem px_eq_digit {level : Nat} (small : level ≤ 2) (va : UInt64) :
    px level va = sv39.digit level (va.toNat / 4096) := by
  have shift : (UInt64.ofNat (12 + 9 * level)).toNat % 64 = 12 + 9 * level := by
    have wide : (12 + 9 * level) % 2 ^ 64 = 12 + 9 * level := Nat.mod_eq_of_lt (by omega)
    rw [UInt64.toNat_ofNat', wide]
    exact Nat.mod_eq_of_lt (by omega)
  rw [px, UInt64.toNat_and, UInt64.toNat_shiftRight, shift, Format.digit, Nat.shiftRight_eq_div_pow]
  have mask := Nat.and_two_pow_sub_one_eq_mod (va.toNat / 2 ^ (12 + 9 * level)) 9
  change _ &&& 511 = _
  rw [mask, Nat.div_div_eq_div_mul, sv39_width, Nat.pow_add, Nat.pow_mul]

end CustomXv6

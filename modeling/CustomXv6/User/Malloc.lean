/-
Module: CustomXv6.User.Malloc
Purpose: The user memory allocator (user/umalloc.c) over the headers of its blocks.
Trusted boundary: human-reviewed spec
Main exports: Malloc.malloc, Malloc.Session.step
-/
import CustomXv6.Lib.Hoare
import CustomXv6.Lib.LinkedRing
import Mathlib.Algebra.Group.Nat.Defs

namespace CustomXv6

open Function

namespace Malloc

/-!
Addresses are numbers of bytes, and a header is given by the two fields at its address.  No two
headers in use overlap, so the fields at different addresses are independent of each other.
`base` is the address of the static header.

The answer of `sbrk` is part of the call: it refuses, or the break stands `gap` bytes above the
end of the last region.  For a positive argument the region handed out lies at or above all
earlier ones; for a negative one memory is given back, as `growproc` does.

The pages up to the break are mapped.  A process that accesses a header anywhere else is killed.
-/

abbrev header : Nat := 16

/-- Bytes `start`, …, `stop - 1`. -/
structure Region where
  start : Nat
  stop : Nat
deriving DecidableEq, Repr

/-- `freep`, the fields `s.ptr` and `s.size` of the headers, the break, and the memory
obtained from `sbrk`. -/
structure Heap where
  freep : Nat
  ptr : Nat → Nat
  size : Nat → Nat
  brk : Nat
  regions : List Region

/-- Why a call does not return: a loop has not ended within the rounds allowed for, or a page
fault. -/
inductive Stop where
  | loop
  | fault
deriving DecidableEq, Repr

abbrev HeapM := StateT Heap (Except Stop)

/-- The header lies below the break rounded up to a page. -/
def Heap.mapped (s : Heap) (h : Nat) : Bool := h + header ≤ (s.brk + 4095) / 4096 * 4096

/-- A load or store of a field of the header. -/
def access (h : Nat) : HeapM PUnit := do
  let s ← get
  if s.mapped h then return else throw .fault

def setPtr (h v : Nat) : HeapM PUnit := do
  access h
  modify fun s => { s with ptr := update s.ptr h v }

/-- `h->s.size = v`, a `uint`. -/
def setSize (h v : Nat) : HeapM PUnit := do
  access h
  modify fun s => { s with size := update s.size h (v % 2 ^ 32) }

def setFreep (v : Nat) : HeapM PUnit := modify fun s => { s with freep := v }

/-- What is left of a region below a new break. -/
def Region.cut (brk : Nat) (region : Region) : Region :=
  { region with stop := min region.stop brk }

/-- `sbrk`, `none` for -1. -/
def sbrk (answer : Option Nat) (n : Int) : HeapM (Option Nat) :=
  match answer with
  | none => return none
  | some gap => do
    let s ← get
    let old := s.brk + gap
    -- A sum below zero wraps around, and `uvmdealloc` leaves the size as it is.
    let new := if old + n < 0 then old else (old + n).toNat
    let regions := if 0 < n then s.regions ++ [⟨old, new⟩] else s.regions.map (Region.cut new)
    set { s with brk := new, regions := regions }
    return some old

/-- The loop condition and the `break` of the loop of `free`. -/
def Heap.between (s : Heap) (bp p : Nat) : Bool :=
  (p < bp && bp < s.ptr p) || (s.ptr p ≤ p && (p < bp || bp < s.ptr p))

/-- `free` behind its loop: the block is joined with the next free block. -/
def joinNext (bp p : Nat) : HeapM PUnit := do
  let s ← get
  let next := s.ptr p
  if bp + header * s.size bp = next then
    access next
    setSize bp (s.size bp + s.size next)
    setPtr bp (s.ptr next)
  else
    setPtr bp next

/-- And the free block before it with the block, which is linked in if they are apart. -/
def joinPrev (bp p : Nat) : HeapM PUnit := do
  let s ← get
  if p + header * s.size p = bp then
    setSize p (s.size p + s.size bp)
    setPtr p (s.ptr bp)
  else
    setPtr p bp
  setFreep p

/-- The loop of `free` ends at `p`, or cannot read its link. -/
def Heap.stops (s : Heap) (bp p : Nat) : Bool := !s.mapped p || s.between bp p

def free (fuel : Nat) (ap : Nat) : HeapM PUnit := do
  let bp := ap - header
  let s ← get
  match CircularList.walk s.ptr (s.stops bp) fuel s.freep with
  | none => throw .loop
  | some p => access p; joinNext bp p; joinPrev bp p

/-- The argument of `sbrk` is an `int`. -/
def toInt (n : Nat) : Int := Int.bmod n (2 ^ 32)

def morecore (fuel : Nat) (answer : Option Nat) (nu : Nat) : HeapM Nat := do
  let nu := if nu < 4096 then 4096 else nu
  match ← sbrk answer (toInt (nu * header)) with
  | none => return 0
  | some hp =>
    setSize hp nu
    free fuel (hp + header)
    return (← get).freep

/-- A block that is large enough is taken from the list, or its tail is. -/
def take (nunits prevp p : Nat) : HeapM Nat := do
  let s ← get
  if s.size p = nunits then
    setPtr prevp (s.ptr p)
    setFreep prevp
    return p + header
  else
    setSize p (s.size p - nunits)
    let tail := p + header * (s.size p - nunits)
    setSize tail nunits
    setFreep prevp
    return tail + header

def mallocLoop (answer : Option Nat) (nunits : Nat) : (fuel : Nat) → (prevp p : Nat) → HeapM Nat
  | 0, _, _ => throw .loop
  | fuel + 1, prevp, p => do
    access p
    let s ← get
    if nunits ≤ s.size p then
      take nunits prevp p
    else if p = s.freep then
      let p ← morecore fuel answer nunits
      if p = 0 then
        return 0
      else
        let s ← get
        mallocLoop answer nunits fuel p (s.ptr p)
    else
      mallocLoop answer nunits fuel p (s.ptr p)

/-- `nunits`; the division is one of `unsigned long`. -/
def units (nbytes : UInt32) : Nat := ((nbytes.toNat + header - 1) / header + 1) % 2 ^ 32

def malloc (base : Nat) (fuel : Nat) (answer : Option Nat) (nbytes : UInt32) : HeapM Nat := do
  let s ← get
  if s.freep = 0 then
    setPtr base base
    setFreep base
    setSize base 0
  let s ← get
  access s.freep
  mallocLoop answer (units nbytes) fuel s.freep (s.ptr s.freep)

/-! ### Programs -/

/-- The allocator, and the pointers that `malloc` returned and that are not freed yet with
the number of bytes asked for. -/
structure Session where
  heap : Heap
  live : List (Nat × Nat)

/-- Where the static header and, before the first `sbrk`, the break are. -/
structure Layout where
  base : Nat
  brk : Nat
  nonzero : 0 < base
  above : base + header ≤ brk

def Session.start (layout : Layout) : Session where
  heap := { freep := 0, ptr := fun _ => 0, size := fun _ => 0, brk := layout.brk, regions := [] }
  live := []

/-- The calls, `malloc` with what the kernel answers should it be asked. -/
inductive Call where
  | malloc (nbytes : UInt32) (answer : Option Nat)
  | free (ap : Nat)
deriving DecidableEq, Repr

/-- A program may free what it got from `malloc` and has not freed yet. -/
def Session.enabled (s : Session) : Call → Prop
  | .malloc _ _ => True
  | .free ap => ap ∈ s.live.map Prod.fst

instance (s : Session) : (call : Call) → Decidable (s.enabled call)
  | .malloc _ _ => inferInstanceAs (Decidable True)
  | .free ap => inferInstanceAs (Decidable (ap ∈ s.live.map Prod.fst))

/-- One call, with loops of at most `fuel` rounds. -/
def Session.step (layout : Layout) (s : Session) (event : Nat × Call) : Option Session :=
  if s.enabled event.2 then
    match event.2 with
    | .malloc nbytes answer =>
      match malloc layout.base event.1 answer nbytes s.heap with
      | .error _ => none
      | .ok (ap, heap) =>
        some ⟨heap, if ap = 0 then s.live else (ap, nbytes.toNat) :: s.live⟩
    | .free ap =>
      match free event.1 ap s.heap with
      | .error _ => none
      | .ok (_, heap) => some ⟨heap, s.live.eraseP fun entry => entry.1 = ap⟩
  else none

end Malloc

end CustomXv6

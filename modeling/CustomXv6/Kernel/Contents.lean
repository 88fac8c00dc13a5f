/-
Module: CustomXv6.Kernel.Contents
Purpose: The bytes of files, and what reading and writing do to them.
Trusted boundary: none
Main exports: Fs.Ok, writei_spec, readi_spec
-/
import CustomXv6.Kernel.Blocks
import Mathlib.Data.List.TakeWhile

namespace CustomXv6

open Function
open Hoare

variable {sb : SuperBlock} {fs fs' fs₁ : Fs} {i j k b n : Nat} {fail : FsPanic → Prop}

namespace Fs

variable {o : Nat} {ip : Inode}

/-! ### The bytes of a file -/

def byte (fs : Fs) (i o : Nat) : UInt8 :=
  match fs.owner (i, blockPlace (o / bsize)) with
  | some b => fs.data b (o % bsize)
  | none => 0

/-- The block that holds offset `o` of inode `i` is there. -/
def Has (fs : Fs) (i o : Nat) : Prop := fs.owner (i, blockPlace (o / bsize)) ≠ none

theorem byte_eq (here : fs.owner (i, blockPlace (k / bsize)) = some b) :
    fs.byte i k = fs.data b (k % bsize) := by
  rw [byte, here]

theorem blockPlace_ne_ndirect (bn : Nat) : blockPlace bn ≠ ndirect := by
  unfold blockPlace
  split <;> omega

theorem blockPlace_injective {m : Nat} (same : blockPlace m = blockPlace n) : m = n := by
  unfold blockPlace at same
  split at same <;> split at same <;> omega

/-- A block of a file is no indirect block, so its bytes do not matter for where
the blocks are. -/
theorem Consistent.owner_setBlock (intact : fs.Consistent sb)
    (here : fs.owner (i, k) = some b) (notTable : k ≠ ndirect) (block : Block) (q : Nat × Nat) :
    (fs.setBlock b block).owner q = fs.owner q := by
  apply owner_congr
  apply addr_congr (show (fs.setBlock b block).node q.1 = fs.node q.1 from rfl)
  intro typed indirect _
  have table : fs.owner (q.1, ndirect) = some ((fs.node q.1).addrs ndirect) :=
    owner_eq_some.mpr ⟨addr_direct typed le_rfl, indirect⟩
  have other : (fs.node q.1).addrs ndirect ≠ b := by
    intro same
    rw [same] at table
    exact notTable (Prod.mk.inj (intact.exact.single here table)).2
  rw [show (fs.setBlock b block).data _ = fs.data _ from update_of_ne other _ _]

/-- The free map and the inodes depend on the bytes only through the places. -/
theorem Consistent.congr (intact : fs.Consistent sb) (marks : fs'.bitmap = fs.bitmap)
    (places : ∀ q, fs'.owner q = fs.owner q) (types : ∀ j, (fs'.node j).type = (fs.node j).type)
    (covered : ∀ j bn, (fs.node j).type ≠ .free → bn * bsize < (fs'.node j).size →
      fs.owner (j, blockPlace bn) ≠ none) : fs'.Consistent sb where
  metadata b below := by
    rw [marks]
    exact intact.metadata b below
  inData q b here := intact.inData q b (places q ▸ here)
  usedOnce b lower upper marked := by
    rw [marks] at marked
    simp only [places]
    exact intact.usedOnce b lower upper marked
  freeNever b lower upper clear q := by
    rw [marks] at clear
    rw [places]
    exact intact.freeNever b lower upper clear q
  present j bn typed below := by
    rw [types] at typed
    rw [places]
    exact covered j bn typed below

/-- Adding blocks to an inode leaves the bytes of all files as they are. -/
theorem Extends.byte (extension : Extends i fs fs') (has : fs.Has j o) :
    fs'.byte j o = fs.byte j o := by
  obtain ⟨b, here⟩ := Option.ne_none_iff_exists'.mp has
  rw [byte_eq here, byte_eq (extension.grows _ b here),
    extension.data j _ b (blockPlace_ne_ndirect _) here]

theorem Extends.has (extension : Extends i fs fs') (has : fs.Has j o) : fs'.Has j o := by
  obtain ⟨b, here⟩ := Option.ne_none_iff_exists'.mp has
  exact Option.ne_none_iff_exists'.mpr ⟨b, extension.grows _ b here⟩

/-! ### The state between operations -/

/-- The file system between two operations on inodes: the free map agrees with
the inodes, and an inode that has been read into memory is in use and the same
there as on disk. -/
structure Ok (sb : SuperBlock) (fs : Fs) : Prop where
  intact : fs.Consistent sb
  synced : ∀ i, (fs.itable i).valid = true → fs.dinodes i = (fs.itable i).toDinode
  typed : ∀ i, (fs.itable i).valid = true → (fs.itable i).type ≠ .free

theorem Ok.node_eq (ok : fs.Ok sb) (i : Nat) : fs.node i = fs.dinodes i := by
  unfold node
  split_ifs with valid
  · exact (ok.synced i valid).symm
  · rfl

theorem Ok.allocated (ok : fs.Ok sb) (valid : (fs.itable i).valid = true) :
    (fs.node i).type ≠ .free := by
  rw [node_of_valid valid]
  exact ok.typed i valid

theorem node_store_self : (fs.store i ip).node i = ip.toDinode := by
  rw [node, store_itable_self, store_dinodes_self, ite_self]

theorem node_store_of_ne (other : j ≠ i) : (fs.store i ip).node j = fs.node j :=
  node_congr (store_itable_of_ne other) (store_dinodes_of_ne other)

/-- Writing an inode back with its type and block numbers leaves the places. -/
theorem owner_store (type : ip.type = (fs.node i).type) (addrs : ip.addrs = (fs.node i).addrs)
    (q : Nat × Nat) : (fs.store i ip).owner q = fs.owner q := by
  obtain ⟨j, k⟩ := q
  apply owner_congr
  by_cases same : j = i
  · subst same
    apply addr_congr_fields
    · rw [node_store_self, type]
    · rw [node_store_self, addrs]
    · exact fun _ _ _ => rfl
  · exact addr_congr (node_store_of_ne same) (fun _ _ _ => rfl) k

/-- An inode is written back with its type and block numbers, and with all the
blocks below its size. -/
theorem Consistent.store (intact : fs.Consistent sb) (type : ip.type = (fs.node i).type)
    (addrs : ip.addrs = (fs.node i).addrs) (covered : ∀ o, o < ip.size → fs.Has i o) :
    (fs.store i ip).Consistent sb := by
  apply intact.congr (show (fs.store i ip).bitmap = fs.bitmap from rfl)
    (owner_store type addrs)
  · intro j
    by_cases same : j = i
    · subst same
      rw [node_store_self, type]
    · rw [node_store_of_ne same]
  intro j bn typed below
  by_cases same : j = i
  · subst same
    rw [node_store_self] at below
    have has := covered (bn * bsize) below
    rwa [Has, Nat.mul_div_cancel bn (by decide)] at has
  · rw [node_store_of_ne same] at below
    exact intact.present j bn typed below

theorem Ok.of_store (intact : fs.Consistent sb) (others : ∀ j, j ≠ i → (fs.itable j).valid = true →
      fs.dinodes j = (fs.itable j).toDinode ∧ (fs.itable j).type ≠ .free)
    (type : ip.type = (fs.node i).type) (addrs : ip.addrs = (fs.node i).addrs)
    (allocated : (fs.node i).type ≠ .free) (covered : ∀ o, o < ip.size → fs.Has i o) :
    (fs.store i ip).Ok sb where
  intact := intact.store type addrs covered
  synced j valid := by
    by_cases same : j = i
    · subst same
      rw [store_dinodes_self, store_itable_self]
    rw [store_itable_of_ne same] at valid ⊢
    rw [store_dinodes_of_ne same]
    exact (others j same valid).1
  typed j valid := by
    by_cases same : j = i
    · subst same
      rw [store_itable_self, type]
      exact allocated
    · rw [store_itable_of_ne same] at valid ⊢
      exact (others j same valid).2

/-- All bytes below the size of an inode are there. -/
theorem Consistent.has (intact : fs.Consistent sb) (typed : (fs.node i).type ≠ .free)
    (below : o < (fs.node i).size) : fs.Has i o :=
  intact.present i (o / bsize) typed
    (Nat.lt_of_le_of_lt (Nat.div_mul_le_self o bsize) below)

/-! ### Writing -/

/-- What writing to inode `i` leaves as it is: all inodes but for the block
numbers of `i`, the place of every block, and the bytes of the other files. -/
structure Writes (i : Nat) (fs fs' : Fs) : Prop where
  dinodes : fs'.dinodes = fs.dinodes
  others : ∀ j, j ≠ i → fs'.itable j = fs.itable j
  self : fs'.itable i = { fs.itable i with addrs := (fs'.itable i).addrs }
  grows : ∀ place b, fs.owner place = some b → fs'.owner place = some b
  elsewhere : ∀ j k, j ≠ i → fs'.owner (j, k) = fs.owner (j, k)
  data : ∀ j k b, j ≠ i → k ≠ ndirect → fs.owner (j, k) = some b → fs'.data b = fs.data b

theorem Extends.writes (extension : Extends i fs fs') : Writes i fs fs' :=
  ⟨extension.dinodes, extension.others, extension.self, extension.grows, extension.elsewhere,
    fun j k b _ => extension.data j k b⟩

theorem Writes.trans {fs₂ fs₃ : Fs} (first : Writes i fs₁ fs₂) (second : Writes i fs₂ fs₃) :
    Writes i fs₁ fs₃ where
  dinodes := second.dinodes.trans first.dinodes
  others j other := (second.others j other).trans (first.others j other)
  self := by rw [second.self, first.self]
  grows place b here := second.grows place b (first.grows place b here)
  elsewhere j k other := (second.elsewhere j k other).trans (first.elsewhere j k other)
  data j k b other notTable here := (second.data j k b other notTable
    (first.grows _ b here)).trans (first.data j k b other notTable here)

theorem Writes.valid (writes : Writes i fs fs') (j : Nat) :
    (fs'.itable j).valid = (fs.itable j).valid := by
  by_cases same : j = i
  · subst same
    rw [writes.self]
  · rw [writes.others j same]

theorem Writes.type (writes : Writes i fs fs') (j : Nat) :
    (fs'.node j).type = (fs.node j).type := by
  unfold node
  rw [writes.valid, writes.dinodes]
  split
  · by_cases same : j = i
    · subst same
      rw [writes.self]
    · rw [writes.others j same]
  · rfl

theorem Writes.has (writes : Writes i fs fs') (has : fs.Has j o) : fs'.Has j o := by
  obtain ⟨b, here⟩ := Option.ne_none_iff_exists'.mp has
  exact Option.ne_none_iff_exists'.mpr ⟨b, writes.grows _ b here⟩

section

variable (intact : fs.Consistent sb) (here : fs.owner (i, k) = some b) (notTable : k ≠ ndirect)
include intact here notTable

/-- The bytes of a block of the inode are written. -/
theorem Consistent.writes_setBlock (block : Block) : Writes i fs (fs.setBlock b block) where
  dinodes := rfl
  others _ _ := rfl
  self := rfl
  grows place c there := (intact.owner_setBlock here notTable block place).trans there
  elsewhere j m _ := intact.owner_setBlock here notTable block (j, m)
  data j m c other _ there := by
    apply update_of_ne
    rintro rfl
    exact other (Prod.mk.inj (intact.exact.single there here)).1

theorem Consistent.setBlock (block : Block) : (fs.setBlock b block).Consistent sb :=
  intact.congr rfl (intact.owner_setBlock here notTable block) (fun _ => rfl)
    fun j bn typed below => intact.present j bn typed below

end

/-- The bytes of the inode after one of its blocks has been written. -/
theorem Consistent.byte_setBlock (intact : fs.Consistent sb) {bn : Nat}
    (here : fs.owner (i, blockPlace bn) = some b) (has : fs.Has i o) (block : Block) :
    (fs.setBlock b block).byte i o =
      if o / bsize = bn then block (o % bsize) else fs.byte i o := by
  obtain ⟨c, there⟩ := Option.ne_none_iff_exists'.mp has
  have after := (intact.owner_setBlock here (blockPlace_ne_ndirect bn) block _).trans there
  rw [byte_eq after, byte_eq there]
  split_ifs with same
  · rw [same, here] at there
    cases there
    rw [show (fs.setBlock b block).data b = block from update_self _ _ _]
  · rw [show (fs.setBlock b block).data c = fs.data c from update_of_ne ?_ _ _]
    rintro rfl
    exact same (blockPlace_injective (Prod.mk.inj (intact.exact.single there here)).2)

end Fs

/-- A copy from memory that is mapped. -/
theorem Block.copyin_mapped (block : Block) {src : Nat → Option UInt8} {start tot m : Nat}
    (mapped : ∀ k, k < m → (src (tot + k)).isSome = true) (k : Nat) :
    block.copyin src start tot m k =
      if start ≤ k ∧ k < start + m then (src (tot + (k - start))).getD 0 else block k := by
  have all : (List.range m).takeWhile (fun j => (src (tot + j)).isSome) = List.range m := by
    rw [List.takeWhile_eq_self_iff]
    intro j mem
    exact mapped j (List.mem_range.mp mem)
  rw [Block.copyin, all, List.length_range]

variable {src : Nat → Option UInt8} {m off tot : Nat}

/-- What the loop of `writei` has done when it stops with `tot` and `off`. -/
structure Written (sb : SuperBlock) (i : Nat) (src : Nat → Option UInt8) (n tot off : Nat)
    (fs : Fs) (res : Nat × Nat) (fs' : Fs) : Prop where
  intact : fs'.Consistent sb
  writes : Fs.Writes i fs fs'
  progress : ∃ m, res = (tot + m, off + m)
  bounded : tot ≤ n → res.1 ≤ n
  whole : off % bsize + (n - tot) ≤ bsize → tot ≤ n → res.1 = tot ∨ res.1 = n
  covered : ∀ o, o < res.2 → fs'.Has i o
  bytes : (∀ k, tot ≤ k → k < n → (src k).isSome = true) →
    (∀ o, off ≤ o → o < res.2 → fs'.byte i o = (src (tot + (o - off))).getD 0) ∧
    ∀ o, fs.Has i o → (o < off ∨ res.2 ≤ o) → fs'.byte i o = fs.byte i o

/-- The loop stops after `bmap` at most, which leaves the bytes as they are. -/
theorem Written.stop (intact : fs'.Consistent sb) (extension : Fs.Extends i fs fs')
    (covered : ∀ o, o < off → fs.Has i o) : Written sb i src n tot off fs (tot, off) fs' where
  intact := intact
  writes := extension.writes
  progress := ⟨0, rfl⟩
  bounded within := within
  whole _ _ := .inl rfl
  covered o below := extension.has (covered o below)
  bytes _ := by
    constructor
    · intro o lower upper
      exact absurd upper (Nat.not_lt_of_le lower)
    · intro o has _
      exact extension.byte has

/-- A round followed by the rest of the loop. -/
theorem Written.step {fs₂ fs₃ : Fs} {res : Nat × Nat}
    (rest : Written sb i src n (tot + m) (off + m) fs₂ res fs₃) (writes : Fs.Writes i fs fs₂)
    (length : m ≤ n - tot) (last : off % bsize + (n - tot) ≤ bsize → m = n - tot)
    (bytes : ∀ o, fs₂.Has i o →
      (off ≤ o ∧ o < off + m → fs₂.byte i o = (src (tot + (o - off))).getD 0) ∧
      (fs.Has i o → ¬ (off ≤ o ∧ o < off + m) → fs₂.byte i o = fs.byte i o))
    (covered : ∀ o, o < off + m → fs₂.Has i o) : Written sb i src n tot off fs res fs₃ := by
  obtain ⟨more, rfl⟩ := rest.progress
  refine ⟨rest.intact, writes.trans rest.writes, ⟨m + more, ?_⟩, fun within => ?_,
    fun fits within => ?_, rest.covered, fun mapped => ?_⟩
  · rw [Nat.add_assoc, Nat.add_assoc]
  · exact rest.bounded (by omega)
  · have upper := rest.bounded (by omega)
    exact .inr (Nat.le_antisymm upper (by simp only; omega))
  obtain ⟨copied, kept⟩ := rest.bytes fun k lower upper => mapped k (by omega) upper
  constructor
  · intro o lower upper
    by_cases later : off + m ≤ o
    · rw [copied o later upper]
      congr 2
      omega
    · have has := covered o (Nat.lt_of_not_le later)
      rw [kept o has (.inl (Nat.lt_of_not_le later))]
      exact (bytes o has).1 ⟨lower, Nat.lt_of_not_le later⟩
  · intro o has _
    have hasAfter := writes.has has
    rw [kept o hasAfter (by omega)]
    exact (bytes o hasAfter).2 has (by omega)

/-- A range of offsets that does not cross the end of a block. -/
theorem within_block {o : Nat} (fits : off % bsize + m ≤ bsize) :
    off ≤ o ∧ o < off + m ↔
      o / bsize = off / bsize ∧ off % bsize ≤ o % bsize ∧ o % bsize < off % bsize + m := by
  simp only [bsize] at fits ⊢
  omega

theorem sub_mod_bsize {o : Nat} (block : o / bsize = off / bsize) :
    o % bsize - off % bsize = o - off := by
  simp only [bsize] at block ⊢
  omega

/-- One round: the bytes up to the end of the block are copied. -/
theorem writeRound (src : Nat → Option UInt8) (tot : Nat) {addr : Nat}
    (intact : fs₁.Consistent sb) (extension : Fs.Extends i fs fs₁) (ne0 : addr ≠ 0)
    (here : addr ≠ 0 → fs₁.owner (i, Fs.blockPlace (off / bsize)) = some addr)
    (covered : ∀ o, o < off → fs.Has i o) (fits : off % bsize + m ≤ bsize) :
    let fs₂ := fs₁.setBlock addr ((fs₁.data addr).copyin src (off % bsize) tot m)
    fs₂.Consistent sb ∧ Fs.Writes i fs fs₂ ∧ (∀ o, o < off + m → fs₂.Has i o) ∧
      ((∀ k, k < m → (src (tot + k)).isSome = true) → ∀ o, fs₂.Has i o →
        (off ≤ o ∧ o < off + m → fs₂.byte i o = (src (tot + (o - off))).getD 0) ∧
        (fs.Has i o → ¬ (off ≤ o ∧ o < off + m) → fs₂.byte i o = fs.byte i o)) := by
  intro fs₂
  have placed := here ne0
  have notTable := Fs.blockPlace_ne_ndirect (off / bsize)
  have same : ∀ q, fs₂.owner q = fs₁.owner q := intact.owner_setBlock placed notTable _
  refine ⟨intact.setBlock placed notTable _,
    extension.writes.trans (intact.writes_setBlock placed notTable _), fun o below => ?_,
    fun mapped o has => ?_⟩
  · -- Either the offset was covered before, or it lies in the block just found.
    by_cases pre : o < off
    · have := extension.has (covered o pre)
      rwa [Fs.Has, same]
    have block := ((within_block fits).mp ⟨Nat.le_of_not_lt pre, below⟩).1
    rw [Fs.Has, same, block, placed]
    exact Option.some_ne_none addr
  have has₁ : fs₁.Has i o := by rwa [Fs.Has, ← same]
  have value := intact.byte_setBlock placed has₁
    ((fs₁.data addr).copyin src (off % bsize) tot m)
  rw [Block.copyin_mapped _ mapped] at value
  constructor
  · intro lt
    obtain ⟨block, position⟩ := (within_block fits).mp lt
    rw [value, if_pos block, if_pos position, sub_mod_bsize block]
  intro hasBefore out
  rw [← extension.byte hasBefore, value]
  split
  · rename_i block
    rw [if_neg fun position => out ((within_block fits).mpr ⟨block, position⟩)]
    rw [Fs.byte_eq (block ▸ placed)]
  · rfl

theorem writeLoop_spec (fuel : Nat) : ∀ {tot off : Nat} {fs : Fs}, fs.Consistent sb →
    (fs.itable i).valid = true → (fs.node i).type ≠ .free →
    (∀ o, o < off → fs.Has i o) → off + (n - tot) ≤ maxfile * bsize →
    wp (writeLoop sb i src n fuel tot off) (Written sb i src n tot off fs) fail fs := by
  induction fuel with
  | zero =>
    intro tot off fs intact _ _ covered _
    exact Written.stop intact (.refl i fs) covered
  | succ _ ih =>
    intro tot off fs intact valid typed covered _
    rw [writeLoop]
    split_ifs with more
    · simp only [wp_bind]
      have small : off / bsize < maxfile := by
        rw [Nat.div_lt_iff_lt_mul (by decide)]
        omega
      apply wp_imp (bmap_spec intact valid typed small)
      rintro _ _ ⟨consistent₁, extension, here⟩
      split
      · exact Written.stop consistent₁ extension covered
      rename_i ne0
      have length : min (n - tot) (bsize - off % bsize) ≤ n - tot := Nat.min_le_left _ _
      have fitsBlock : off % bsize + min (n - tot) (bsize - off % bsize) ≤ bsize := by
        have := Nat.mod_lt off (show 0 < bsize by decide)
        omega
      have last : off % bsize + (n - tot) ≤ bsize →
          min (n - tot) (bsize - off % bsize) = n - tot := by omega
      generalize min (n - tot) (bsize - off % bsize) = m at length fitsBlock last ⊢
      obtain ⟨consistent₂, writes, covered₂, bytes⟩ :=
        writeRound src tot consistent₁ extension ne0 here covered fitsBlock
      simp only [wp_bind, wp_modify]
      split
      · rename_i copied
        rw [List.all_eq_true] at copied
        have mapped : ∀ k, k < m → (src (tot + k)).isSome = true := fun k below =>
          copied k (List.mem_range.mpr below)
        apply wp_imp (ih consistent₂ (by rwa [writes.valid])
          (by rwa [writes.type]) covered₂ (by omega))
        intro _ _ rest
        exact rest.step writes length last (bytes mapped) covered₂
      rename_i failed
      refine ⟨consistent₂, writes, ⟨0, rfl⟩, fun within => within, fun _ _ => .inl rfl,
        fun o below => covered₂ o (Nat.lt_of_lt_of_le below (Nat.le_add_right off m)),
        fun mapped => absurd ?_ failed⟩
      apply List.all_eq_true.mpr
      intro k mem
      have := List.mem_range.mp mem
      exact mapped (tot + k) (by omega) (by omega)
    · exact Written.stop intact (.refl i fs) covered

/-- What `writei` leaves when it returns `tot`. -/
structure Wrote (sb : SuperBlock) (i : Nat) (src : Nat → Option UInt8) (off n tot : Nat)
    (fs fs' : Fs) : Prop where
  ok : fs'.Ok sb
  memory : ∀ j, j ≠ i → fs'.itable j = fs.itable j
  disk : ∀ j, j ≠ i → fs'.dinodes j = fs.dinodes j
  self : fs'.itable i = { fs.itable i with
    size := max (fs.itable i).size (off + tot), addrs := (fs'.itable i).addrs }
  whole : off % bsize + n ≤ bsize → tot = 0 ∨ tot = n
  elsewhere : ∀ j k, j ≠ i → fs'.owner (j, k) = fs.owner (j, k)
  data : ∀ j k b, j ≠ i → k ≠ ndirect → fs.owner (j, k) = some b → fs'.data b = fs.data b
  bytes : (∀ k, k < n → (src k).isSome = true) →
    (∀ o, off ≤ o → o < off + tot → fs'.byte i o = (src (o - off)).getD 0) ∧
    ∀ o, o < (fs.itable i).size → (o < off ∨ off + tot ≤ o) → fs'.byte i o = fs.byte i o

/-- The end of `writei`: the size is set and the inode written back. -/
theorem Written.finish (ok : fs.Ok sb) (valid : (fs.itable i).valid = true)
    (wrote : Written sb i src n 0 off fs (tot, off + tot) fs₁) :
    Wrote sb i src off n tot fs (fs₁.store i { fs₁.itable i with
      size := max (fs.itable i).size (off + tot) }) := by
  have writes := wrote.writes
  have valid₁ : (fs₁.itable i).valid = true := by rwa [writes.valid]
  have allocated := ok.allocated valid
  have node := Fs.node_of_valid valid₁
  have size : (fs.node i).size = (fs.itable i).size := by rw [Fs.node_of_valid valid]
  generalize changed : { fs₁.itable i with size := max (fs.itable i).size (off + tot) } = ip
  have type : ip.type = (fs₁.node i).type := by rw [← changed, node]
  have addrs : ip.addrs = (fs₁.node i).addrs := by rw [← changed, node]
  have places := Fs.owner_store type addrs
  have bytes : ∀ o, (fs₁.store i ip).byte i o = fs₁.byte i o := fun o => by
    rw [Fs.byte, Fs.byte, places]
    rfl
  have has : ∀ {o}, o < (fs.itable i).size → fs.Has i o := fun below =>
    ok.intact.has allocated (size ▸ below)
  refine ⟨?_, fun j other => ?_, fun j other => ?_, ?_, fun fits => ?_, fun j k other => ?_, ?_,
    fun mapped => ?_⟩
  · apply Fs.Ok.of_store wrote.intact _ type addrs (by rwa [writes.type])
    · intro o below
      -- Below the old size the bytes were there, and the loop covers the others.
      rw [← changed] at below
      cases lt_max_iff.mp below with
      | inl old => exact writes.has (has old)
      | inr new => exact wrote.covered o new
    · intro j other validJ
      rw [writes.others j other] at validJ ⊢
      rw [writes.dinodes]
      exact ⟨ok.synced j validJ, ok.typed j validJ⟩
  · rw [Fs.store_itable_of_ne other, writes.others j other]
  · rw [Fs.store_dinodes_of_ne other, writes.dinodes]
  · rw [Fs.store_itable_self, ← changed, writes.self]
  · exact wrote.whole fits (Nat.zero_le n)
  · rw [places, writes.elsewhere j k other]
  · exact writes.data
  obtain ⟨copied, kept⟩ := wrote.bytes fun k _ => mapped k
  constructor
  · intro o lower upper
    rw [bytes, copied o lower upper, Nat.zero_add]
  · intro o below out
    rw [bytes, kept o (has below) out]

/-- `writei` of a valid inode returns: -1 with nothing changed, or the number of
bytes written. -/
theorem writei_spec (ok : fs.Ok sb) (valid : (fs.itable i).valid = true) :
    wp (writei sb i src off n) (fun r fs' => (r = -1 ∧ fs' = fs) ∨
      ∃ tot : Nat, r = tot ∧ tot ≤ n ∧ off ≤ (fs.itable i).size ∧
        Wrote sb i src off n tot fs fs') fail fs := by
  have allocated := ok.allocated valid
  simp only [writei, wp_bind, wp_get]
  split
  · exact .inl ⟨rfl, rfl⟩
  rename_i lt
  split
  · exact .inl ⟨rfl, rfl⟩
  rename_i small
  simp only [wp_bind]
  have start : off ≤ (fs.itable i).size := by omega
  apply wp_imp (writeLoop_spec n ok.intact valid allocated _ (by omega))
  · rintro _ fs₁ wrote
    obtain ⟨tot, rfl⟩ := wrote.progress
    simp only [Nat.zero_add] at wrote ⊢
    have finished := wrote.finish ok valid
    have bounded := wrote.bounded (Nat.zero_le n)
    have oldSize : (fs₁.itable i).size = (fs.itable i).size := by rw [wrote.writes.self]
    split
    · rename_i longer
      rw [Nat.max_eq_right (Nat.le_of_lt longer)] at finished
      simp only [wp_bind, wp_modify, Fs.wp_iupdate]
      exact .inr ⟨tot, rfl, bounded, start, finished⟩
    · rename_i shorter
      rw [Nat.max_eq_left (Nat.le_of_not_lt shorter), ← oldSize] at finished
      simp only [wp_bind, wp_pure, Fs.wp_iupdate_same]
      exact .inr ⟨tot, rfl, bounded, start, finished⟩
  · intro o below
    apply ok.intact.has allocated
    rw [Fs.node_of_valid valid]
    exact Nat.lt_of_lt_of_le below start

/-! ### Reading -/

variable {dst : Nat → Bool}

def Fs.bytesFrom (fs : Fs) (i off n : Nat) : List UInt8 :=
  (List.range n).map fun k => fs.byte i (off + k)

theorem Fs.bytesFrom_append (fs : Fs) (i off m n : Nat) :
    fs.bytesFrom i off m ++ fs.bytesFrom i (off + m) n = fs.bytesFrom i off (m + n) := by
  simp only [Fs.bytesFrom, List.range_add, List.map_append, List.map_map]
  congr 1
  apply List.map_congr_left
  intro k _
  simp only [Function.comp, Nat.add_assoc]

/-- The bytes that one round copies. -/
theorem Fs.bytesFrom_block {addr : Nat} (fits : off % bsize + m ≤ bsize)
    (here : fs.owner (i, Fs.blockPlace (off / bsize)) = some addr) :
    (List.range m).map (fun k => fs.data addr (off % bsize + k)) = fs.bytesFrom i off m := by
  apply List.map_congr_left
  intro k mem
  have below := List.mem_range.mp mem
  obtain ⟨block, _⟩ := (within_block fits).mp ⟨Nat.le_add_right off k, Nat.add_lt_add_left below _⟩
  rw [Fs.byte_eq (block ▸ here)]
  congr 1
  simp only [bsize] at fits ⊢
  omega

/-- The loop of `readi` changes nothing where the bytes are there, and returns
them if they can all be copied. -/
theorem readLoop_spec (valid : (fs.itable i).valid = true) (fuel : Nat) :
    ∀ {tot off : Nat} {copied : List UInt8}, (∀ k, k < n - tot → fs.Has i (off + k)) →
    wp (readLoop sb i dst n fuel tot off copied) (fun r fs' => fs' = fs ∧
      ((∀ k, dst k = true) → n - tot ≤ fuel → tot ≤ n →
        r = ((n : Int), copied ++ fs.bytesFrom i off (n - tot)))) fail fs := by
  induction fuel with
  | zero =>
    intro tot off copied _
    refine ⟨rfl, fun _ enough within => ?_⟩
    obtain rfl : tot = n := by omega
    simp [Fs.bytesFrom]
  | succ fuel ih =>
    intro tot off copied has
    rw [readLoop]
    split_ifs with more
    · obtain ⟨addr, here⟩ := Option.ne_none_iff_exists'.mp (has 0 (by omega))
      simp only [wp_bind]
      apply wp_imp (bmap_present valid here)
      rintro found fs' ⟨rfl, rfl⟩
      rw [if_neg (Fs.owner_eq_some.mp here).2]
      simp only [wp_bind, wp_get]
      have length : min (n - tot) (bsize - off % bsize) ≤ n - tot := Nat.min_le_left _ _
      have pos : 0 < min (n - tot) (bsize - off % bsize) := by
        have := Nat.mod_lt off (show 0 < bsize by decide)
        omega
      have fits : off % bsize + min (n - tot) (bsize - off % bsize) ≤ bsize := by
        omega
      generalize min (n - tot) (bsize - off % bsize) = m at length pos fits ⊢
      split
      · rw [Fs.bytesFrom_block fits here]
        apply wp_imp (ih _)
        · rintro r fs' ⟨rfl, res⟩
          refine ⟨rfl, fun writable enough within => ?_⟩
          rw [res writable (by omega) (by omega), List.append_assoc, Fs.bytesFrom_append]
          congr 4
          omega
        · intro k below
          have := has (m + k) (by omega)
          rwa [← Nat.add_assoc] at this
      · rename_i failed
        refine ⟨rfl, fun writable _ _ => absurd ?_ failed⟩
        exact List.all_eq_true.mpr fun k _ => writable _
    · refine ⟨rfl, fun _ _ within => ?_⟩
      obtain rfl : tot = n := by omega
      simp [Fs.bytesFrom]

/-- `readi` changes nothing, and returns the bytes asked for that are below the
size, if they can all be copied. -/
theorem readi_spec (ok : fs.Ok sb) (valid : (fs.itable i).valid = true) :
    wp (readi sb i dst off n) (fun r fs' => fs' = fs ∧ ((∀ k, dst k = true) →
      r = if (fs.itable i).size < off ∨ 2 ^ 32 ≤ off + n then (0, [])
        else (((min n ((fs.itable i).size - off) : Nat) : Int),
          fs.bytesFrom i off (min n ((fs.itable i).size - off))))) fail fs := by
  simp only [readi, wp_bind, wp_get]
  split
  · exact ⟨rfl, fun _ => rfl⟩
  rename_i lt
  have count : (if (fs.itable i).size < off + n then (fs.itable i).size - off else n) =
      min n ((fs.itable i).size - off) := by
    split <;> omega
  rw [count]
  apply wp_imp (readLoop_spec valid _ _)
  · rintro r _ ⟨rfl, res⟩
    refine ⟨rfl, fun writable => ?_⟩
    rw [res writable (Nat.sub_le _ _) (Nat.zero_le _), Nat.sub_zero, List.nil_append]
  intro k _
  apply ok.intact.has (ok.allocated valid)
  rw [Fs.node_of_valid valid]
  omega

end CustomXv6

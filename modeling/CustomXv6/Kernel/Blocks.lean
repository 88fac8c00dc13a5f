/-
Module: CustomXv6.Kernel.Blocks
Purpose: The blocks of the inodes, and what allocating and freeing does to them.
Trusted boundary: none
Main exports: Fs.Consistent, bmap_spec, itrunc_spec
-/
import CustomXv6.Kernel.Inode
import CustomXv6.Lib.Counting

namespace CustomXv6

open Function
open Hoare Ownership

/-! ### Writing an inode back -/

variable {sb : SuperBlock} {fs fs' : Fs} {i j k b : Nat} {fail : FsPanic → Prop}

namespace Fs

variable {ip : Inode} {post : Unit → Fs → Prop}

/-- The inode `i` changed in memory and then written to disk by `iupdate`. -/
def store (fs : Fs) (i : Nat) (ip : Inode) : Fs :=
  { fs with dinodes := update fs.dinodes i ip.toDinode, itable := update fs.itable i ip }

theorem store_itable_self : (fs.store i ip).itable i = ip := update_self _ _ _

theorem store_itable_of_ne (other : j ≠ i) : (fs.store i ip).itable j = fs.itable j :=
  update_of_ne other _ _

theorem store_dinodes_self : (fs.store i ip).dinodes i = ip.toDinode := update_self _ _ _

theorem store_dinodes_of_ne (other : j ≠ i) : (fs.store i ip).dinodes j = fs.dinodes j :=
  update_of_ne other _ _

/-- A change of an inode in memory followed by `iupdate`. -/
theorem wp_iupdate : wp (iupdate i) post fail (fs.setInode i ip) ↔ post () (fs.store i ip) := by
  have cur : (fs.setInode i ip).itable i = ip := update_self _ _ _
  simp only [iupdate, wp_modify, cur]
  rfl

/-- `iupdate` of an inode that has not been changed. -/
theorem wp_iupdate_same : wp (iupdate i) post fail fs ↔ post () (fs.store i (fs.itable i)) := by
  have same : fs.setInode i (fs.itable i) = fs := by
    rw [setInode, update_eq_self]
  have update : wp (iupdate i) post fail (fs.setInode i (fs.itable i)) ↔ _ := wp_iupdate
  rwa [same] at update

end Fs

/-! ### Words in a block -/

theorem Block.uint_zeroBlock (j : Nat) : Block.uint zeroBlock j = 0 := rfl

theorem Block.uint_setUint_self (block : Block) (j : Nat) {value : Nat} (fits : value < 2 ^ 32) :
    (block.setUint j value).uint j = value := by
  have quotients : (4 * j) / 4 = j ∧ (4 * j + 1) / 4 = j ∧ (4 * j + 2) / 4 = j ∧
      (4 * j + 3) / 4 = j := by omega
  have remainders : (4 * j) % 4 = 0 ∧ (4 * j + 1) % 4 = 1 ∧ (4 * j + 2) % 4 = 2 ∧
      (4 * j + 3) % 4 = 3 := by omega
  simp only [Block.uint, Block.setUint, quotients, remainders, if_true, UInt8.toNat_ofNat',
    Nat.reducePow, Nat.div_one]
  omega

theorem Block.uint_setUint_of_ne (block : Block) (value : Nat) (other : k ≠ j) :
    (block.setUint j value).uint k = block.uint k := by
  have quotients : (4 * k) / 4 = k ∧ (4 * k + 1) / 4 = k ∧ (4 * k + 2) / 4 = k ∧
      (4 * k + 3) / 4 = k := by omega
  simp only [Block.uint, Block.setUint, quotients, other, if_false]

/-! ### The blocks an inode refers to -/

namespace Fs

/-- An inode as the code sees it: the copy in memory if that is valid, and else
the one on disk. -/
def node (fs : Fs) (i : Nat) : Dinode :=
  if (fs.itable i).valid then (fs.itable i).toDinode else fs.dinodes i

/-- The block number at a place of an inode.  The places 0 to `NDIRECT - 1` are
the direct blocks, `NDIRECT` is the indirect block, and its entries follow. -/
def addr (fs : Fs) (i k : Nat) : Nat :=
  if (fs.node i).type = .free then 0
  else if k ≤ ndirect then (fs.node i).addrs k
  else if (fs.node i).addrs ndirect = 0 ∨ maxfile < k then 0
  else (fs.data ((fs.node i).addrs ndirect)).uint (k - (ndirect + 1))

/-- The block at a place, an inode number and a place in that inode. -/
def owner (fs : Fs) (place : Nat × Nat) : Option Nat :=
  if fs.addr place.1 place.2 = 0 then none else some (fs.addr place.1 place.2)

/-- The place of the block with index `bn` of a file. -/
def blockPlace (bn : Nat) : Nat := if bn < ndirect then bn else bn + 1

/-- The free map and the inodes agree: the blocks before the data blocks are marked used and
no inode refers to them; a data block that is marked used is referred to exactly once, a free
one never; and an allocated inode has all the blocks below its size. -/
structure Consistent (sb : SuperBlock) (fs : Fs) : Prop where
  metadata : ∀ b, b < sb.dataStart → fs.bitmap b = true
  inData : ∀ place b, fs.owner place = some b → sb.dataStart ≤ b ∧ b < sb.size
  usedOnce : ∀ b, sb.dataStart ≤ b → b < sb.size → fs.bitmap b = true →
    ∃! place, fs.owner place = some b
  freeNever : ∀ b, sb.dataStart ≤ b → b < sb.size → fs.bitmap b = false →
    ∀ place, fs.owner place ≠ some b
  present : ∀ i bn, (fs.node i).type ≠ .free → bn * bsize < (fs.node i).size →
    fs.owner (i, blockPlace bn) ≠ none

end Fs

theorem SuperBlock.dataStart_pos (sb : SuperBlock) : 0 < sb.dataStart :=
  Nat.sub_pos_of_lt sb.metadata

namespace Fs

variable {place : Nat × Nat}

theorem owner_eq_some : fs.owner place = some b ↔ fs.addr place.1 place.2 = b ∧ b ≠ 0 := by
  unfold owner
  split_ifs with zero
  · constructor
    · intro absurd
      cases absurd
    · rintro ⟨same, ne0⟩
      exact absurd (same.symm.trans zero) ne0
  rw [Option.some.injEq]
  constructor
  · rintro rfl
    exact ⟨rfl, zero⟩
  · exact fun same => same.1

theorem owner_eq_none : fs.owner place = none ↔ fs.addr place.1 place.2 = 0 := by
  unfold owner
  split <;> simp_all

/-- The block a place refers to depends on the type and the block numbers of the
inode and on its indirect block. -/
theorem addr_congr_fields (sameType : (fs'.node i).type = (fs.node i).type)
    (sameAddrs : (fs'.node i).addrs = (fs.node i).addrs)
    (sameBlock : (fs.node i).type ≠ .free → (fs.node i).addrs ndirect ≠ 0 →
      ∀ j, (fs'.data ((fs.node i).addrs ndirect)).uint j =
        (fs.data ((fs.node i).addrs ndirect)).uint j) (k : Nat) : fs'.addr i k = fs.addr i k := by
  unfold addr
  rw [sameType, sameAddrs]
  split
  · rfl
  rename_i typed
  split
  · rfl
  split
  · rfl
  · rename_i entries
    exact sameBlock typed (fun zero => entries (.inl zero)) _

theorem addr_congr (sameNode : fs'.node i = fs.node i)
    (sameBlock : (fs.node i).type ≠ .free → (fs.node i).addrs ndirect ≠ 0 →
      ∀ j, (fs'.data ((fs.node i).addrs ndirect)).uint j =
        (fs.data ((fs.node i).addrs ndirect)).uint j) (k : Nat) : fs'.addr i k = fs.addr i k :=
  addr_congr_fields (by rw [sameNode]) (by rw [sameNode]) sameBlock k

theorem addr_direct (typed : (fs.node i).type ≠ .free) (small : k ≤ ndirect) :
    fs.addr i k = (fs.node i).addrs k := by
  rw [addr, if_neg typed, if_pos small]

theorem addr_indirect (typed : (fs.node i).type ≠ .free) (entry : ndirect < k) :
    fs.addr i k = if (fs.node i).addrs ndirect = 0 ∨ maxfile < k then 0
      else (fs.data ((fs.node i).addrs ndirect)).uint (k - (ndirect + 1)) := by
  rw [addr, if_neg typed, if_neg (Nat.not_le_of_lt entry)]

/-- No inode has a place beyond the last entry of the indirect block. -/
theorem addr_beyond (beyond : maxfile < k) : fs.addr i k = 0 := by
  have notDirect : ¬ k ≤ ndirect := by
    change ndirect + nindirect < k at beyond
    omega
  have nothing : (fs.node i).addrs ndirect = 0 ∨ maxfile < k := .inr beyond
  rw [addr, if_neg notDirect, if_pos nothing, ite_self]

theorem addr_entry (typed : (fs.node i).type ≠ .free)
    (indirect : (fs.node i).addrs ndirect ≠ 0) (small : j < nindirect) :
    fs.addr i (ndirect + 1 + j) = (fs.data ((fs.node i).addrs ndirect)).uint j := by
  rw [addr_indirect typed (by omega), if_neg]
  · rw [Nat.add_sub_cancel_left]
  rintro (zero | large)
  · exact indirect zero
  · change ndirect + nindirect < _ at large
    omega

namespace Consistent

/-- A data block is in use if it is marked in the free map. -/
def Used (sb : SuperBlock) (fs : Fs) (b : Nat) : Prop :=
  sb.dataStart ≤ b ∧ b < sb.size ∧ fs.bitmap b = true

/-- The data blocks in use stand each at one place. -/
theorem exact (intact : fs.Consistent sb) : Exact (Used sb fs) fs.owner where
  used_iff b := by
    constructor
    · rintro ⟨lower, upper, marked⟩
      exact (intact.usedOnce b lower upper marked).exists
    rintro ⟨place, here⟩
    obtain ⟨lower, upper⟩ := intact.inData place b here
    refine ⟨lower, upper, ?_⟩
    by_contra clear
    exact intact.freeNever b lower upper (Bool.not_eq_true _ ▸ clear) place here
  single {p q b} atP atQ := by
    obtain ⟨lower, upper⟩ := intact.inData p b atP
    have marked : fs.bitmap b = true := by
      by_contra clear
      exact intact.freeNever b lower upper (Bool.not_eq_true _ ▸ clear) p atP
    exact (intact.usedOnce b lower upper marked).unique atP atQ

theorem of_exact (metadata : ∀ b, b < sb.dataStart → fs.bitmap b = true)
    (exact : Exact (Used sb fs) fs.owner)
    (present : ∀ i bn, (fs.node i).type ≠ .free → bn * bsize < (fs.node i).size →
      fs.owner (i, blockPlace bn) ≠ none) : fs.Consistent sb where
  metadata := metadata
  inData place b here := by
    obtain ⟨lower, upper, _⟩ := (exact.used_iff b).mpr ⟨place, here⟩
    exact ⟨lower, upper⟩
  usedOnce _ lower upper marked := exact.unique ⟨lower, upper, marked⟩
  freeNever b _ _ clear place here := by
    obtain ⟨_, _, marked⟩ := (exact.used_iff b).mpr ⟨place, here⟩
    rw [clear] at marked
    cases marked
  present := present

theorem marked (intact : fs.Consistent sb) (here : fs.owner place = some b) :
    fs.bitmap b = true :=
  ((intact.exact.used_iff b).mpr ⟨place, here⟩).2.2

/-- A free data block stands at no place. -/
theorem ne_of_clear (intact : fs.Consistent sb) (here : fs.owner place = some k)
    (clear : fs.bitmap b = false) : k ≠ b := by
  rintro rfl
  rw [intact.marked here] at clear
  cases clear

end Consistent

/-! ### Adding a block -/

/-- What adding blocks to inode `i` leaves as it is: all inodes but for the block
numbers of `i`, the place of every block, and the bytes of the blocks of files. -/
structure Extends (i : Nat) (fs fs' : Fs) : Prop where
  dinodes : fs'.dinodes = fs.dinodes
  others : ∀ j, j ≠ i → fs'.itable j = fs.itable j
  self : fs'.itable i = { fs.itable i with addrs := (fs'.itable i).addrs }
  grows : ∀ place b, fs.owner place = some b → fs'.owner place = some b
  elsewhere : ∀ j k, j ≠ i → fs'.owner (j, k) = fs.owner (j, k)
  data : ∀ j k b, k ≠ ndirect → fs.owner (j, k) = some b → fs'.data b = fs.data b

namespace Extends

theorem refl (i : Nat) (fs : Fs) : Extends i fs fs :=
  ⟨rfl, fun _ _ => rfl, rfl, fun _ _ here => here, fun _ _ _ => rfl, fun _ _ _ _ _ => rfl⟩

theorem trans {fs₁ fs₂ fs₃ : Fs} (first : Extends i fs₁ fs₂) (second : Extends i fs₂ fs₃) :
    Extends i fs₁ fs₃ where
  dinodes := second.dinodes.trans first.dinodes
  others j other := (second.others j other).trans (first.others j other)
  self := by rw [second.self, first.self]
  grows place b here := second.grows place b (first.grows place b here)
  elsewhere j k other := (second.elsewhere j k other).trans (first.elsewhere j k other)
  data j k b notTable here :=
    (second.data j k b notTable (first.grows _ b here)).trans (first.data j k b notTable here)

end Extends

variable {m table : Nat}

/-- An inode whose copy in memory is valid. -/
theorem node_of_valid (valid : (fs.itable i).valid = true) :
    fs.node i = (fs.itable i).toDinode := if_pos valid

theorem node_congr (sameMemory : fs'.itable i = fs.itable i)
    (sameDisk : fs'.dinodes i = fs.dinodes i) : fs'.node i = fs.node i := by
  rw [node, node, sameMemory, sameDisk]

/-- A free block handed out to an empty place of an inode keeps the free map and the inodes in
agreement. -/
theorem Consistent.claim (intact : fs.Consistent sb) (place : Nat × Nat)
    (lower : sb.dataStart ≤ b) (upper : b < sb.size) (clear : fs.bitmap b = false) (empty : fs.owner place = none)
    (marked : fs'.bitmap = update fs.bitmap b true)
    (placed : ∀ q, fs'.owner q = if q = place then some b else fs.owner q)
    (types : ∀ j, (fs'.node j).type = (fs.node j).type)
    (sizes : ∀ j, (fs'.node j).size = (fs.node j).size) : fs'.Consistent sb := by
  apply Consistent.of_exact
  · intro c below
    rw [marked, update_apply]
    split
    · rfl
    · exact intact.metadata c below
  · apply intact.exact.claim (p := place) (b := b)
    · rintro ⟨_, _, used⟩
      rw [clear] at used
      cases used
    · exact empty
    · intro c
      unfold Used
      rw [marked, update_apply]
      split_ifs with same
      · subst same
        exact ⟨fun _ => .inl rfl, fun _ => ⟨lower, upper, rfl⟩⟩
      · exact ⟨.inr, fun either => either.resolve_left same⟩
    · exact placed
  intro j bn typed below
  rw [types] at typed
  rw [sizes] at below
  rw [placed]
  split
  · exact Option.some_ne_none b
  · exact intact.present j bn typed below

/-- The state after `balloc` has found block `b`. -/
def alloc (fs : Fs) (b : Nat) : Fs := (fs.setBit b true).setBlock b zeroBlock

theorem alloc_data_of_ne (other : k ≠ b) : (fs.alloc b).data k = fs.data k := update_of_ne other _ _

theorem alloc_data_self : (fs.alloc b).data b = zeroBlock := update_self _ _ _

/-- A place of an inode with the same indirect block is not touched by what happens to a block
that no inode refers to. -/
theorem Consistent.addr_alloc (intact : fs.Consistent sb) (clear : fs.bitmap b = false)
    (sameNode : fs'.node j = fs.node j) (sameData : ∀ c, c ≠ b → fs'.data c = fs.data c)
    (k : Nat) : fs'.addr j k = fs.addr j k := by
  apply addr_congr sameNode
  intro typed indirect _
  have here : fs.owner (j, ndirect) = some ((fs.node j).addrs ndirect) :=
    owner_eq_some.mpr ⟨addr_direct typed le_rfl, indirect⟩
  rw [sameData _ (intact.ne_of_clear here clear)]

theorem owner_congr (same : fs'.addr place.1 place.2 = fs.addr place.1 place.2) :
    fs'.owner place = fs.owner place := by
  rw [owner, owner, same]

/-- `ip->addrs[k]` set to a new block. -/
def claimAddr (fs : Fs) (i k b : Nat) : Fs := (fs.alloc b).setAddr i k b

theorem claimAddr_itable_self : (fs.claimAddr i k b).itable i =
    { fs.itable i with addrs := update (fs.itable i).addrs k b } := update_self _ _ _

theorem claimAddr_itable_of_ne (other : j ≠ i) :
    (fs.claimAddr i k b).itable j = fs.itable j := update_of_ne other _ _

theorem claimAddr_node_of_ne (other : j ≠ i) : (fs.claimAddr i k b).node j = fs.node j :=
  node_congr (claimAddr_itable_of_ne other) rfl

section

variable (valid : (fs.itable i).valid = true)
include valid

theorem claimAddr_node_self :
    (fs.claimAddr i k b).node i = { fs.node i with addrs := update (fs.node i).addrs k b } := by
  rw [node_of_valid valid, node_of_valid, claimAddr_itable_self]
  rw [claimAddr_itable_self]
  exact valid

theorem claimAddr_addrs : ((fs.claimAddr i k b).node i).addrs = update (fs.node i).addrs k b := by
  rw [claimAddr_node_self valid]

theorem claimAddr_type (j : Nat) : ((fs.claimAddr i k b).node j).type = (fs.node j).type := by
  by_cases same : j = i
  · rw [same, claimAddr_node_self valid]
  · rw [claimAddr_node_of_ne same]

theorem claimAddr_size (j : Nat) : ((fs.claimAddr i k b).node j).size = (fs.node j).size := by
  by_cases same : j = i
  · rw [same, claimAddr_node_self valid]
  · rw [claimAddr_node_of_ne same]

/-- The direct blocks and the indirect block of the inode itself. -/
theorem claimAddr_addr_direct (typed : (fs.node i).type ≠ .free) (direct : m ≤ ndirect) :
    (fs.claimAddr i k b).addr i m = if m = k then b else fs.addr i m := by
  rw [addr_direct (by rwa [claimAddr_type valid]) direct, claimAddr_addrs valid,
    update_apply, addr_direct typed direct]

end

section

variable (intact : fs.Consistent sb)
  (valid : (fs.itable i).valid = true)
  (typed : (fs.node i).type ≠ .free)
include intact valid typed

/-- The entries of the indirect block: it is the new block and is cleared, or another one. -/
theorem claimAddr_addr_entry (empty : (fs.node i).addrs k = 0) (clear : fs.bitmap b = false)
    (entry : ndirect < m) : (fs.claimAddr i k b).addr i m = fs.addr i m := by
  rw [addr_indirect (by rwa [claimAddr_type valid]) entry, addr_indirect typed entry,
    claimAddr_addrs valid, update_apply]
  by_cases table : ndirect = k
  · subst table
    simp only [empty, true_or, if_true]
    split
    · rfl
    · rw [show (fs.claimAddr i ndirect b).data b = zeroBlock from alloc_data_self]
      exact Block.uint_zeroBlock _
  rw [if_neg table]
  split_ifs with entries
  · rfl
  have here : fs.owner (i, ndirect) = some ((fs.node i).addrs ndirect) :=
    owner_eq_some.mpr ⟨addr_direct typed le_rfl, fun zero => entries (.inl zero)⟩
  rw [show (fs.claimAddr i k b).data _ = fs.data _ from
    alloc_data_of_ne (intact.ne_of_clear here clear)]

theorem claimAddr_owner (small : k ≤ ndirect) (empty : (fs.node i).addrs k = 0) (ne0 : b ≠ 0)
    (clear : fs.bitmap b = false) (q : Nat × Nat) :
    (fs.claimAddr i k b).owner q = if q = (i, k) then some b else fs.owner q := by
  obtain ⟨j, m⟩ := q
  by_cases other : j = i
  · subst other
    by_cases direct : m ≤ ndirect
    · have value := claimAddr_addr_direct (b := b) (k := k) valid typed direct
      split
      · rename_i same
        rw [if_pos (Prod.mk.inj same).2] at value
        exact owner_eq_some.mpr ⟨value, ne0⟩
      · rename_i differs
        rw [if_neg fun same => differs (by rw [same])] at value
        exact owner_congr value
    rw [if_neg]
    · exact owner_congr
        (claimAddr_addr_entry intact valid typed empty clear (Nat.lt_of_not_le direct))
    · intro same
      exact direct ((Prod.mk.inj same).2 ▸ small)
  · rw [if_neg fun same => other (Prod.mk.inj same).1]
    exact owner_congr (intact.addr_alloc clear (claimAddr_node_of_ne other)
      (fun _ differs => alloc_data_of_ne differs) m)

theorem claimAddr_extends (small : k ≤ ndirect)
    (empty : (fs.node i).addrs k = 0) (ne0 : b ≠ 0) (clear : fs.bitmap b = false) :
    Extends i fs (fs.claimAddr i k b) where
  dinodes := rfl
  others _ other := claimAddr_itable_of_ne other
  self := by rw [claimAddr_itable_self]
  grows place c here := by
    rw [claimAddr_owner intact valid typed small empty ne0 clear, if_neg]
    · exact here
    rintro rfl
    rw [owner_eq_none.mpr ((addr_direct typed small).trans empty)] at here
    cases here
  elsewhere j m other := by
    rw [claimAddr_owner intact valid typed small empty ne0 clear,
      if_neg fun same => other (Prod.mk.inj same).1]
  data _ _ _ _ here := alloc_data_of_ne (intact.ne_of_clear here clear)

theorem claimAddr_consistent (small : k ≤ ndirect) (empty : (fs.node i).addrs k = 0)
    (lower : sb.dataStart ≤ b) (upper : b < sb.size) (clear : fs.bitmap b = false) :
    (fs.claimAddr i k b).Consistent sb := by
  have ne0 : b ≠ 0 := Nat.ne_of_gt (Nat.lt_of_lt_of_le sb.dataStart_pos lower)
  apply intact.claim (i, k) lower upper clear
  · exact owner_eq_none.mpr ((addr_direct typed small).trans empty)
  · rfl
  · exact claimAddr_owner intact valid typed small empty ne0 clear
  · exact claimAddr_type valid
  · exact claimAddr_size valid

end

/-- The entry `m` of the indirect block of an inode set to a new block. -/
def claimEntry (fs : Fs) (table m b : Nat) : Fs :=
  (fs.alloc b).setBlock table (((fs.alloc b).data table).setUint m b)

theorem claimEntry_node (j : Nat) : (fs.claimEntry table m b).node j = fs.node j := rfl

theorem claimEntry_data_of_ne {c : Nat} (other : c ≠ b) (notTable : c ≠ table) :
    (fs.claimEntry table m b).data c = fs.data c :=
  (update_of_ne notTable _ _).trans (alloc_data_of_ne other)

theorem claimEntry_table (other : table ≠ b) :
    (fs.claimEntry table m b).data table = (fs.data table).setUint m b := by
  refine (update_self _ _ _).trans ?_
  rw [alloc_data_of_ne other]

/-- The entries of the indirect block in which one has been set. -/
theorem claimEntry_addr_entry (typed : (fs.node i).type ≠ .free) {l : Nat}
    (indirect : (fs.node i).addrs ndirect ≠ 0) (notNew : (fs.node i).addrs ndirect ≠ b)
    (small : m < nindirect) (fits : b < 2 ^ 32) (entry : ndirect < l) :
    (fs.claimEntry ((fs.node i).addrs ndirect) m b).addr i l =
      if l = ndirect + 1 + m then b else fs.addr i l := by
  rw [addr_indirect typed entry, addr_indirect (by exact typed) entry, claimEntry_node,
    claimEntry_table notNew]
  by_cases same : l = ndirect + 1 + m
  · rw [if_pos same, if_neg, same, Nat.add_sub_cancel_left, Block.uint_setUint_self _ _ fits]
    rintro (zero | large)
    · exact indirect zero
    · change ndirect + nindirect < l at large
      omega
  · rw [if_neg same, Block.uint_setUint_of_ne]
    omega

variable (intact : fs.Consistent sb)
  (typed : (fs.node i).type ≠ .free)
  (indirect : (fs.node i).addrs ndirect ≠ 0)
include intact typed indirect

theorem claimEntry_owner (small : m < nindirect) (ne0 : b ≠ 0)
    (upper : b < sb.size) (clear : fs.bitmap b = false) (q : Nat × Nat) :
    (fs.claimEntry ((fs.node i).addrs ndirect) m b).owner q =
      if q = (i, ndirect + 1 + m) then some b else fs.owner q := by
  have table : fs.owner (i, ndirect) = some ((fs.node i).addrs ndirect) :=
    owner_eq_some.mpr ⟨addr_direct typed le_rfl, indirect⟩
  have notNew := intact.ne_of_clear table clear
  obtain ⟨j, l⟩ := q
  by_cases other : j = i
  · subst other
    by_cases direct : l ≤ ndirect
    · rw [if_neg]
      · apply owner_congr
        rw [addr_direct typed direct, addr_direct (by exact typed) direct]
        rfl
      · intro same
        have position := (Prod.mk.inj same).2
        omega
    have value := claimEntry_addr_entry typed indirect notNew small
      (Nat.lt_trans upper sb.fits) (Nat.lt_of_not_le direct)
    split
    · rename_i same
      rw [if_pos (Prod.mk.inj same).2] at value
      exact owner_eq_some.mpr ⟨value, ne0⟩
    · rename_i differs
      rw [if_neg fun same => differs (by rw [same])] at value
      exact owner_congr value
  rw [if_neg fun same => other (Prod.mk.inj same).1]
  apply owner_congr
  apply addr_congr (claimEntry_node j)
  intro allocatedJ indirectJ _
  -- The indirect blocks of two inodes are different blocks.
  have tableJ : fs.owner (j, ndirect) = some ((fs.node j).addrs ndirect) :=
    owner_eq_some.mpr ⟨addr_direct allocatedJ le_rfl, indirectJ⟩
  rw [claimEntry_data_of_ne (intact.ne_of_clear tableJ clear)]
  intro sameTable
  rw [sameTable] at tableJ
  exact other (Prod.mk.inj (intact.exact.single tableJ table)).1

theorem claimEntry_extends (small : m < nindirect)
    (empty : (fs.data ((fs.node i).addrs ndirect)).uint m = 0) (ne0 : b ≠ 0)
    (upper : b < sb.size) (clear : fs.bitmap b = false) :
    Extends i fs (fs.claimEntry ((fs.node i).addrs ndirect) m b) where
  dinodes := rfl
  others _ _ := rfl
  self := rfl
  grows place c here := by
    rw [claimEntry_owner intact typed indirect small ne0 upper clear, if_neg]
    · exact here
    rintro rfl
    rw [owner_eq_none.mpr ((addr_entry typed indirect small).trans empty)] at here
    cases here
  elsewhere j l other := by
    rw [claimEntry_owner intact typed indirect small ne0 upper clear,
      if_neg fun same => other (Prod.mk.inj same).1]
  data j l c notTable here := by
    apply claimEntry_data_of_ne (intact.ne_of_clear here clear)
    rintro rfl
    have table : fs.owner (i, ndirect) = some ((fs.node i).addrs ndirect) :=
      owner_eq_some.mpr ⟨addr_direct typed le_rfl, indirect⟩
    exact notTable (Prod.mk.inj (intact.exact.single here table)).2

theorem claimEntry_consistent (small : m < nindirect)
    (empty : (fs.data ((fs.node i).addrs ndirect)).uint m = 0) (lower : sb.dataStart ≤ b)
    (upper : b < sb.size) (clear : fs.bitmap b = false) :
    (fs.claimEntry ((fs.node i).addrs ndirect) m b).Consistent sb := by
  have ne0 : b ≠ 0 := Nat.ne_of_gt (Nat.lt_of_lt_of_le sb.dataStart_pos lower)
  apply intact.claim (i, ndirect + 1 + m) lower upper clear
  · exact owner_eq_none.mpr ((addr_entry typed indirect small).trans empty)
  · rfl
  · exact claimEntry_owner intact typed indirect small ne0 upper clear
  · exact fun _ => rfl
  · exact fun _ => rfl

end Fs

/-! ### Allocating -/

/-- `balloc` finds a free data block, or leaves everything as it is. -/
theorem balloc_spec (intact : fs.Consistent sb) :
    wp (balloc sb) (fun b fs' => (b = 0 ∧ fs' = fs) ∨ (sb.dataStart ≤ b ∧ b < sb.size ∧
      fs.bitmap b = false ∧ fs' = fs.alloc b)) fail fs := by
  simp only [balloc, wp_bind, wp_get]
  cases found : (List.range sb.size).find? fun b => !fs.bitmap b with
  | none =>
    exact .inl ⟨rfl, rfl⟩
  | some b =>
    have clear : fs.bitmap b = false := by simpa using List.find?_some found
    have upper : b < sb.size := List.mem_range.mp (List.mem_of_find?_eq_some found)
    refine .inr ⟨?_, upper, clear, rfl⟩
    by_contra below
    rw [intact.metadata b (Nat.lt_of_not_le below)] at clear
    cases clear

/-- What `bmap` ensures: the free map and the inodes agree, only blocks of the
inode have been added, and a result other than 0 is the block asked for. -/
def Mapped (sb : SuperBlock) (fs : Fs) (i k : Nat) (addr : Nat) (fs' : Fs) : Prop :=
  fs'.Consistent sb ∧ Fs.Extends i fs fs' ∧ (addr ≠ 0 → fs'.owner (i, k) = some addr)

theorem Mapped.failed (intact : fs.Consistent sb) (k : Nat) : Mapped sb fs i k 0 fs :=
  ⟨intact, .refl i fs, fun ne0 => absurd rfl ne0⟩

theorem Mapped.present (intact : fs.Consistent sb) {addr : Nat}
    (here : fs.addr i k = addr) : Mapped sb fs i k addr fs :=
  ⟨intact, .refl i fs, fun ne0 => Fs.owner_eq_some.mpr ⟨here, ne0⟩⟩

theorem Mapped.trans {fs₁ fs₂ fs₃ : Fs} {addr : Nat} (first : Fs.Extends i fs₁ fs₂)
    (second : Mapped sb fs₂ i k addr fs₃) : Mapped sb fs₁ i k addr fs₃ :=
  ⟨second.1, first.trans second.2.1, second.2.2⟩

/-- The entry of an indirect block. -/
theorem bmapEntry_spec (intact : fs.Consistent sb) (typed : (fs.node i).type ≠ .free)
    (indirect : (fs.node i).addrs ndirect ≠ 0) {m : Nat} (small : m < nindirect) :
    wp (bmapEntry sb ((fs.node i).addrs ndirect) m) (Mapped sb fs i (ndirect + 1 + m)) fail fs := by
  have entry := Fs.addr_entry typed indirect small
  simp only [bmapEntry, wp_bind, wp_get]
  split_ifs with empty
  · simp only [wp_bind]
    apply wp_imp (balloc_spec intact)
    rintro new _ (⟨rfl, rfl⟩ | ⟨lower, upper, clear, rfl⟩)
    · exact .failed intact _
    have ne0 : new ≠ 0 := Nat.ne_of_gt (Nat.lt_of_lt_of_le sb.dataStart_pos lower)
    rw [if_pos ne0]
    refine ⟨Fs.claimEntry_consistent intact typed indirect small empty lower upper clear,
      Fs.claimEntry_extends intact typed indirect small empty ne0 upper clear,
      fun _ => ?_⟩
    exact (Fs.claimEntry_owner intact typed indirect small ne0 upper clear _).trans
      (if_pos rfl)
  · exact .present intact entry

section

variable (intact : fs.Consistent sb)
  (valid : (fs.itable i).valid = true)
  (typed : (fs.node i).type ≠ .free)
include intact valid typed

/-- A new block for an empty entry of `ip->addrs`. -/
theorem claimAddr_mapped (small : k ≤ ndirect)
    (empty : (fs.node i).addrs k = 0) (lower : sb.dataStart ≤ b) (upper : b < sb.size)
    (clear : fs.bitmap b = false) : Mapped sb fs i k b (fs.claimAddr i k b) := by
  have ne0 : b ≠ 0 := Nat.ne_of_gt (Nat.lt_of_lt_of_le sb.dataStart_pos lower)
  refine ⟨Fs.claimAddr_consistent intact valid typed small empty lower upper clear,
    Fs.claimAddr_extends intact valid typed small empty ne0 clear, fun _ => ?_⟩
  exact (Fs.claimAddr_owner intact valid typed small empty ne0 clear _).trans
    (if_pos rfl)

/-- `bmap` of a valid inode returns for every index that a file can have. -/
theorem bmap_spec {bn : Nat} (small : bn < maxfile) :
    wp (bmap sb i bn) (Mapped sb fs i (Fs.blockPlace bn)) fail fs := by
  have inMemory : (fs.itable i).addrs = (fs.node i).addrs := by rw [Fs.node_of_valid valid]
  simp only [bmap, wp_bind, wp_get, inMemory]
  by_cases direct : bn < ndirect
  · have place : Fs.blockPlace bn = bn := if_pos direct
    rw [if_pos direct, place]
    split_ifs with empty
    · simp only [wp_bind]
      apply wp_imp (balloc_spec intact)
      rintro _ fs' (⟨rfl, rfl⟩ | ⟨lower, upper, clear, rfl⟩)
      · exact .failed intact _
      rw [if_pos (Nat.ne_of_gt (Nat.lt_of_lt_of_le sb.dataStart_pos lower))]
      exact claimAddr_mapped intact valid typed (Nat.le_of_lt direct) empty lower upper
        clear
    · exact .present intact (Fs.addr_direct typed (Nat.le_of_lt direct))
  have place : Fs.blockPlace bn = ndirect + 1 + (bn - ndirect) := by
    rw [Fs.blockPlace, if_neg direct]
    omega
  have entry : bn - ndirect < nindirect := by
    change bn < ndirect + nindirect at small
    omega
  rw [if_neg direct, if_pos entry, place]
  split_ifs with empty
  · simp only [wp_bind]
    apply wp_imp (balloc_spec intact)
    rintro table _ (⟨rfl, rfl⟩ | ⟨lower, upper, clear, rfl⟩)
    · exact .failed intact _
    have ne0 : table ≠ 0 := Nat.ne_of_gt (Nat.lt_of_lt_of_le sb.dataStart_pos lower)
    rw [if_neg ne0]
    obtain ⟨consistent', extension, _⟩ :=
      claimAddr_mapped intact valid typed le_rfl empty lower upper clear
    have addrs : ((fs.claimAddr i ndirect table).node i).addrs ndirect = table := by
      rw [Fs.claimAddr_addrs valid, update_self]
    have found : wp (bmapEntry sb _ (bn - ndirect)) _ fail _ := bmapEntry_spec consistent'
      (by rwa [Fs.claimAddr_type valid]) (by rwa [addrs]) entry
    rw [addrs] at found
    exact wp_imp found fun _ _ mapped => mapped.trans extension
  · exact bmapEntry_spec intact typed empty entry

end

/-- `bmap` returns a block that is there and changes nothing. -/
theorem bmap_present (valid : (fs.itable i).valid = true) {bn addr : Nat}
    (here : fs.owner (i, Fs.blockPlace bn) = some addr) :
    wp (bmap sb i bn) (fun found fs' => found = addr ∧ fs' = fs) fail fs := by
  have inMemory : (fs.itable i).addrs = (fs.node i).addrs := by rw [Fs.node_of_valid valid]
  obtain ⟨place, ne0⟩ := Fs.owner_eq_some.mp here
  have typed : (fs.node i).type ≠ .free := by
    intro free
    rw [Fs.addr, if_pos free] at place
    exact ne0 place.symm
  simp only [bmap, wp_bind, wp_get, inMemory]
  by_cases direct : bn < ndirect
  · rw [Fs.blockPlace, if_pos direct, Fs.addr_direct typed (Nat.le_of_lt direct)] at place
    rw [if_pos direct, if_neg (place ▸ ne0)]
    exact ⟨place, rfl⟩
  have entry : ndirect < bn + 1 := by omega
  rw [Fs.blockPlace, if_neg direct, Fs.addr_indirect typed entry] at place
  split_ifs at place with lt
  · exact absurd place.symm ne0
  have indirect : (fs.node i).addrs ndirect ≠ 0 := fun zero => lt (.inl zero)
  have small : bn - ndirect < nindirect := by
    have bound : ¬ ndirect + nindirect < bn + 1 := fun large => lt (.inr large)
    omega
  rw [if_neg direct, if_pos small, if_neg indirect]
  rw [show bn + 1 - (ndirect + 1) = bn - ndirect by omega] at place
  simp only [bmapEntry, wp_bind, wp_get, place]
  rw [if_neg ne0]
  exact ⟨rfl, rfl⟩

/-! ### Freeing -/

/-- The state in the middle of `itrunc`: the blocks at the places in `gone` are
free again, and the block numbers in memory are `addrs`. -/
structure Freeing (i : Nat) (fs : Fs) (gone : Nat → Prop) (addrs : Nat → Nat) (fs' : Fs) :
    Prop where
  data : fs'.data = fs.data
  dinodes : fs'.dinodes = fs.dinodes
  itable : fs'.itable = update fs.itable i { fs.itable i with addrs := addrs }
  bitmap : ∀ b, fs'.bitmap b = true ↔ fs.bitmap b = true ∧ ∀ k, gone k → fs.owner (i, k) ≠ some b

namespace Freeing

variable {gone : Nat → Prop} {addrs : Nat → Nat}

theorem start (i : Nat) (fs : Fs) : Freeing i fs (fun _ => False) (fs.itable i).addrs fs where
  data := rfl
  dinodes := rfl
  itable := (update_eq_self i fs.itable).symm
  bitmap _ := ⟨fun marked => ⟨marked, fun _ => False.elim⟩, fun both => both.1⟩

variable (freeing : Freeing i fs gone addrs fs')
include freeing

theorem itable_self : fs'.itable i = { fs.itable i with addrs := addrs } := by
  rw [freeing.itable, update_self]

/-- Places without a block can be counted among those that are done. -/
theorem skip {gone' : Nat → Prop}
    (more : ∀ k, gone' k → gone k ∨ fs.owner (i, k) = none) (less : ∀ k, gone k → gone' k) :
    Freeing i fs gone' addrs fs' where
  data := freeing.data
  dinodes := freeing.dinodes
  itable := freeing.itable
  bitmap b := by
    rw [freeing.bitmap]
    constructor
    · rintro ⟨marked, left⟩
      refine ⟨marked, fun k done here => ?_⟩
      cases more k done with
      | inl pre => exact left k pre here
      | inr empty =>
        rw [empty] at here
        cases here
    · rintro ⟨marked, left⟩
      exact ⟨marked, fun k pre => left k (less k pre)⟩

/-- The block at a further place is freed: it is marked used, since no place that
is done held it. -/
theorem bfree (gone' : Nat → Prop) (intact : fs.Consistent sb)
    (here : fs.owner (i, k) = some b) (left : ¬ gone k) (done : ∀ m, gone' m ↔ m = k ∨ gone m) :
    wp (CustomXv6.bfree b) (fun _ fs'' => Freeing i fs gone' addrs fs'') fail fs' := by
  have marked : fs'.bitmap b = true := by
    apply (freeing.bitmap b).mpr
    refine ⟨intact.marked here, fun m pre there => ?_⟩
    have same := (Prod.mk.inj (intact.exact.single here there)).2
    exact left (same ▸ pre)
  simp only [CustomXv6.bfree, wp_bind, wp_get, marked, if_true, wp_set]
  refine ⟨freeing.data, freeing.dinodes, freeing.itable, fun c => ?_⟩
  change update fs'.bitmap b false c = true ↔ _
  rw [update_apply]
  split
  · rename_i same
    subst same
    constructor
    · intro absurd
      cases absurd
    · rintro ⟨_, free⟩
      exact absurd here (free k ((done k).mpr (.inl rfl)))
  rename_i other
  rw [freeing.bitmap]
  constructor
  · rintro ⟨markedC, free⟩
    refine ⟨markedC, fun m pre => ?_⟩
    cases (done m).mp pre with
    | inl same =>
      rw [same, here]
      exact fun absurd => other (Option.some.inj absurd).symm
    | inr earlier => exact free m earlier
  · rintro ⟨markedC, free⟩
    exact ⟨markedC, fun m pre => free m ((done m).mpr (.inr pre))⟩

/-- `ip->addrs[k] = 0`. -/
theorem clear (k : Nat) : Freeing i fs gone (update addrs k 0) (fs'.setAddr i k 0) where
  data := freeing.data
  dinodes := freeing.dinodes
  itable := by
    change update fs'.itable i _ = _
    rw [freeing.itable_self, freeing.itable, update_idem]
  bitmap := freeing.bitmap

end Freeing

theorem itruncDirect_spec (intact : fs.Consistent sb) (valid : (fs.itable i).valid = true)
    (typed : (fs.node i).type ≠ .free) :
    wp (itruncDirect i) (fun _ fs' => ∃ addrs, Freeing i fs (· < ndirect) addrs fs' ∧
      (∀ m, m < ndirect → addrs m = 0) ∧ addrs ndirect = (fs.node i).addrs ndirect) fail fs := by
  have inMemory : (fs.itable i).addrs = (fs.node i).addrs := by rw [Fs.node_of_valid valid]
  -- After `k` rounds the first `k` places are done and the other numbers are the old ones.
  let inv (k : Nat) (s : Fs) : Prop := ∃ addrs, Freeing i fs (· < k) addrs s ∧
    (∀ m, m < k → addrs m = 0) ∧ ∀ m, k ≤ m → addrs m = (fs.node i).addrs m
  have start : inv 0 fs := by
    refine ⟨_, (Freeing.start i fs).skip ?_ ?_, ?_, fun m _ => by rw [inMemory]⟩
    · exact fun k absurd => (Nat.not_lt_zero k absurd).elim
    · exact fun _ => False.elim
    · exact fun m absurd => (Nat.not_lt_zero m absurd).elim
  apply wp_imp (wp_forM_range inv ndirect start ?_)
  · rintro _ _ ⟨addrs, freeing, zero, rest⟩
    exact ⟨addrs, freeing, zero, rest ndirect le_rfl⟩
  rintro k s below ⟨addrs, freeing, zero, rest⟩
  have cur : (s.itable i).addrs k = (fs.node i).addrs k := by
    rw [freeing.itable_self]
    exact rest k le_rfl
  have place : fs.addr i k = (fs.node i).addrs k := Fs.addr_direct typed (Nat.le_of_lt below)
  simp only [wp_bind, wp_get, cur]
  split_ifs with ne0
  · simp only [wp_bind]
    apply wp_imp (freeing.bfree (· < k + 1) intact
      (Fs.owner_eq_some.mpr ⟨place, ne0⟩) (Nat.lt_irrefl k) (by omega))
    intro _ _ freeing'
    refine ⟨_, freeing'.clear k, fun m done => ?_, fun m later => ?_⟩
    · rw [update_apply]
      split
      · rfl
      · exact zero m (by omega)
    · rw [update_of_ne (by omega)]
      exact rest m (by omega)
  rw [not_not] at ne0
  refine ⟨addrs, freeing.skip (fun m done => ?_) (fun m done => by omega), fun m done => ?_,
    fun m later => rest m (by omega)⟩
  · by_cases last : m = k
    · subst last
      exact .inr (Fs.owner_eq_none.mpr (place.trans ne0))
    · exact .inl (by omega)
  · by_cases last : m = k
    · subst last
      exact (rest m le_rfl).trans ne0
    · exact zero m (by omega)

theorem itruncIndirect_spec (intact : fs.Consistent sb) (typed : (fs.node i).type ≠ .free)
    {addrs : Nat → Nat} (freeing : Freeing i fs (· < ndirect) addrs fs')
    (same : addrs ndirect = (fs.node i).addrs ndirect) :
    wp (itruncIndirect i) (fun _ fs'' => ∃ addrs', Freeing i fs (fun _ => True) addrs' fs'' ∧
      addrs' ndirect = 0 ∧ ∀ m, m < ndirect → addrs' m = addrs m) fail fs' := by
  have cur : (fs'.itable i).addrs ndirect = (fs.node i).addrs ndirect := by
    rw [freeing.itable_self]
    exact same
  have placeTable : fs.addr i ndirect = (fs.node i).addrs ndirect := Fs.addr_direct typed le_rfl
  simp only [itruncIndirect, wp_bind, wp_get, cur, freeing.data]
  split
  · rename_i indirect
    have table : fs.owner (i, ndirect) = some ((fs.node i).addrs ndirect) :=
      Fs.owner_eq_some.mpr ⟨placeTable, indirect⟩
    simp only [wp_bind]
    -- After `j` rounds the direct blocks and the first `j` entries are done.
    let gone (j m : Nat) : Prop := m < ndirect ∨ (ndirect < m ∧ m < ndirect + 1 + j)
    let inv (j : Nat) (s : Fs) : Prop := Freeing i fs (gone j) addrs s
    have start : inv 0 fs' := freeing.skip (by simp only [gone]; omega) (fun _ => .inl)
    apply wp_imp (wp_forM_range inv nindirect start ?_)
    · rintro _ s freed
      apply wp_imp (freed.bfree (fun m => m < ndirect + 1 + nindirect) intact table
        (by simp only [gone]; omega) (by simp only [gone]; omega))
      intro _ _ freed
      refine ⟨_, (freed.skip (fun m _ => ?_) (fun _ _ => trivial)).clear ndirect,
        update_self _ _ _, fun m small => update_of_ne (Nat.ne_of_lt small) _ _⟩
      by_cases lt : m < ndirect + 1 + nindirect
      · exact .inl lt
      apply Or.inr (Fs.owner_eq_none.mpr (Fs.addr_beyond _))
      change ndirect + nindirect < m
      omega
    intro j s small freed
    have place := Fs.addr_entry typed indirect small
    split_ifs with ne0
    · apply freed.bfree (gone (j + 1)) intact (k := ndirect + 1 + j)
      · exact Fs.owner_eq_some.mpr ⟨place, ne0⟩
      · simp only [gone]
        omega
      · simp only [gone]
        omega
    rw [not_not] at ne0
    apply freed.skip
    · intro m done
      by_cases last : m = ndirect + 1 + j
      · subst last
        exact .inr (Fs.owner_eq_none.mpr (place.trans ne0))
      · exact .inl (by simp only [gone] at done ⊢; omega)
    · simp only [gone]
      omega
  rename_i empty
  rw [not_not] at empty
  refine ⟨addrs, freeing.skip (fun m _ => ?_) (fun _ _ => trivial), same.trans empty,
    fun _ _ => rfl⟩
  -- Without an indirect block there is none at the places from `NDIRECT` on.
  rcases Nat.lt_trichotomy m ndirect with direct | table | entry
  · exact .inl direct
  · exact .inr (Fs.owner_eq_none.mpr (table ▸ placeTable.trans empty))
  · apply Or.inr (Fs.owner_eq_none.mpr _)
    rw [Fs.addr_indirect typed entry, if_pos (.inl empty)]

/-- What `itrunc` leaves: the inode has no blocks and no bytes, and its blocks
are free. -/
structure Truncated (i : Nat) (fs fs' : Fs) : Prop where
  data : fs'.data = fs.data
  disk : ∀ j, j ≠ i → fs'.dinodes j = fs.dinodes j
  others : ∀ j, j ≠ i → fs'.itable j = fs.itable j
  self : fs'.itable i = { fs.itable i with size := 0, addrs := (fs'.itable i).addrs }
  addrs : ∀ k, k ≤ ndirect → (fs'.itable i).addrs k = 0
  written : fs'.dinodes i = (fs'.itable i).toDinode
  bitmap : ∀ b, fs'.bitmap b = true ↔ fs.bitmap b = true ∧ ∀ k, fs.owner (i, k) ≠ some b

/-- `itrunc` of a valid inode returns: all the blocks it frees are marked used. -/
theorem itrunc_spec (intact : fs.Consistent sb) (valid : (fs.itable i).valid = true)
    (typed : (fs.node i).type ≠ .free) :
    wp (itrunc i) (fun _ fs' => Truncated i fs fs') fail fs := by
  simp only [itrunc, wp_bind]
  apply wp_imp (itruncDirect_spec intact valid typed)
  rintro _ _ ⟨_, freeing, zero, same⟩
  apply wp_imp (itruncIndirect_spec intact typed freeing same)
  rintro _ _ ⟨_, freed, zeroTable, kept⟩
  simp only [wp_modify, Fs.wp_iupdate, freed.itable_self]
  refine ⟨freed.data, fun j other => ?_, fun j other => ?_, ?_, fun k small => ?_, ?_, fun b => ?_⟩
  · rw [Fs.store_dinodes_of_ne other, freed.dinodes]
  · rw [Fs.store_itable_of_ne other, freed.itable, update_of_ne other]
  · rw [Fs.store_itable_self]
  · rw [Fs.store_itable_self]
    cases Nat.eq_or_lt_of_le small with
    | inl last => exact last ▸ zeroTable
    | inr pre => exact (kept k pre).trans (zero k pre)
  · rw [Fs.store_dinodes_self, Fs.store_itable_self]
  · refine (freed.bitmap b).trans ?_
    simp only [forall_const]

/-- An inode gives up all its blocks, and they are marked free. -/
theorem Fs.Consistent.drop (intact : fs.Consistent sb)
    (marked : ∀ b, fs'.bitmap b = true ↔ fs.bitmap b = true ∧ ∀ k, fs.owner (i, k) ≠ some b)
    (cleared : ∀ k, fs'.owner (i, k) = none) (others : ∀ j, j ≠ i → fs'.node j = fs.node j)
    (kept : ∀ j k, j ≠ i → fs'.owner (j, k) = fs.owner (j, k))
    (empty : (fs'.node i).type ≠ .free → (fs'.node i).size = 0) : fs'.Consistent sb := by
  apply Consistent.of_exact
  · intro b below
    refine (marked b).mpr ⟨intact.metadata b below, fun k here => ?_⟩
    have lower := (intact.inData (i, k) b here).1
    omega
  · apply intact.exact.release (fun place => place.1 = i)
    · intro b
      unfold Consistent.Used
      rw [marked]
      constructor
      · rintro ⟨lower, upper, used, free⟩
        refine ⟨⟨lower, upper, used⟩, ?_⟩
        rintro ⟨j, k⟩ rfl
        exact free k
      · rintro ⟨⟨lower, upper, used⟩, free⟩
        exact ⟨lower, upper, used, fun k => free (i, k) rfl⟩
    · rintro ⟨j, k⟩ rfl
      exact cleared k
    · rintro ⟨j, k⟩ other
      exact kept j k other
  intro j bn typed below
  by_cases same : j = i
  · subst same
    rw [empty typed] at below
    exact (Nat.not_lt_zero _ below).elim
  · rw [others j same] at typed below
    rw [kept j _ same]
    exact intact.present j bn typed below

namespace Truncated

theorem node_of_ne (cut : Truncated i fs fs') (other : j ≠ i) : fs'.node j = fs.node j :=
  Fs.node_congr (cut.others j other) (cut.disk j other)

theorem owner_of_ne (cut : Truncated i fs fs') (other : j ≠ i) (k : Nat) :
    fs'.owner (j, k) = fs.owner (j, k) := by
  apply Fs.owner_congr
  apply Fs.addr_congr (cut.node_of_ne other)
  intro _ _ _
  rw [cut.data]

end Truncated

end CustomXv6

/-
Module: CustomXv6.Kernel.References
Purpose: What taking, locking and dropping references to inodes does to the files.
Trusted boundary: none
Main exports: Fs.Held, Fs.Moved, iput_spec
-/
import CustomXv6.Kernel.Contents

namespace CustomXv6

open Function
open Hoare

variable {sb : SuperBlock} {base : Nat → Nat} {fs fs' fs₁ fs₂ fs₃ : Fs} {i j : Nat}

namespace Fs

variable {ip : Inode}

theorem setInode_itable_self (fs : Fs) (i : Nat) (ip : Inode) :
    (fs.setInode i ip).itable i = ip := update_self _ _ _

theorem setInode_itable_of_ne (fs : Fs) (other : j ≠ i) (ip : Inode) :
    (fs.setInode i ip).itable j = fs.itable j := update_of_ne other _ _

theorem setInode_setInode (fs : Fs) (i : Nat) (ip ip' : Inode) :
    (fs.setInode i ip).setInode i ip' = fs.setInode i ip' := by
  simp only [setInode, update_idem]

/-! ### Files that stay the same -/

/-- A file is the same in both states: the fields that describe it and the bytes
below its size.  The numbers of its blocks may differ. -/
structure SameFile (i : Nat) (fs fs' : Fs) : Prop where
  type : (fs'.node i).type = (fs.node i).type
  nlink : (fs'.node i).nlink = (fs.node i).nlink
  size : (fs'.node i).size = (fs.node i).size
  byte : ∀ o, o < (fs.node i).size → fs'.byte i o = fs.byte i o

theorem SameFile.refl (i : Nat) (fs : Fs) : SameFile i fs fs := ⟨rfl, rfl, rfl, fun _ _ => rfl⟩

theorem SameFile.trans (first : SameFile i fs₁ fs₂) (second : SameFile i fs₂ fs₃) :
    SameFile i fs₁ fs₃ where
  type := second.type.trans first.type
  nlink := second.nlink.trans first.nlink
  size := second.size.trans first.size
  byte o below := (second.byte o (first.size ▸ below)).trans (first.byte o below)

theorem SameFile.of_node (node : fs'.node i = fs.node i) (byte : ∀ o, fs'.byte i o = fs.byte i o) :
    SameFile i fs fs' :=
  ⟨by rw [node], by rw [node], by rw [node], fun o _ => byte o⟩

/-- The bytes of an inode are where they were. -/
theorem byte_congr (places : ∀ k, fs'.owner (i, k) = fs.owner (i, k))
    (data : ∀ k b, k ≠ ndirect → fs.owner (i, k) = some b → fs'.data b = fs.data b) (o : Nat) :
    fs'.byte i o = fs.byte i o := by
  unfold byte
  rw [places]
  split
  · rename_i b here
    rw [data _ b (blockPlace_ne_ndirect _) here]
  · rfl

/-- Every file is the same, but for inodes without links that have been freed. -/
def Drops (fs fs' : Fs) : Prop :=
  ∀ i, SameFile i fs fs' ∨
    ((fs.node i).nlink = 0 ∧ (fs'.node i).type = .free ∧ (fs'.node i).nlink = 0)

theorem Drops.of_same (same : ∀ i, SameFile i fs fs') : Drops fs fs' := fun i => .inl (same i)

theorem Drops.trans (first : Drops fs₁ fs₂) (second : Drops fs₂ fs₃) : Drops fs₁ fs₃ := by
  intro i
  cases first i with
  | inl same =>
    cases second i with
    | inl same' => exact .inl (same.trans same')
    | inr freed => exact .inr ⟨same.nlink ▸ freed.1, freed.2⟩
  | inr freed =>
    cases second i with
    | inl same =>
      exact .inr ⟨freed.1, same.type.trans freed.2.1, same.nlink.trans freed.2.2⟩
    | inr freed' => exact .inr ⟨freed.1, freed'.2⟩

/-! ### References -/

/-- The references to inodes: the list names those that the running call holds,
one entry for each, and `base` is the number of all others. -/
def Held (base : Nat → Nat) (held : List Nat) (fs : Fs) : Prop :=
  ∀ i, (fs.itable i).ref = (base i + held.count i : Nat)

/-- A part of an operation that gives up and takes references: it ends with the
references `after`, the inodes in `keep` that were valid still are, and it
changes no file but for those it frees, to which nobody else has references. -/
structure Moved (sb : SuperBlock) (base : Nat → Nat) (keep after : List Nat) (fs fs' : Fs) :
    Prop where
  ok : fs'.Ok sb
  held : Held base after fs'
  valid : ∀ i, i ∈ keep → (fs.itable i).valid = true → (fs'.itable i).valid = true
  files : Drops fs fs'
  kept : ∀ i, 0 < base i → SameFile i fs fs'

variable {keep keep' mid after : List Nat}

theorem Moved.trans (first : Moved sb base keep mid fs₁ fs₂)
    (second : Moved sb base keep' after fs₂ fs₃) (sub : ∀ i, i ∈ keep → i ∈ keep') :
    Moved sb base keep after fs₁ fs₃ where
  ok := second.ok
  held := second.held
  valid i mem valid := second.valid i (sub i mem) (first.valid i mem valid)
  files := first.files.trans second.files
  kept i shared := (first.kept i shared).trans (second.kept i shared)

theorem Moved.refl (ok : fs.Ok sb) {held : List Nat} (holds : Held base held fs) (keep : List Nat) :
    Moved sb base keep held fs fs :=
  ⟨ok, holds, fun _ _ valid => valid, .of_same fun i => .refl i fs, fun i _ => .refl i fs⟩

/-- A part of an operation that takes references and frees nothing. -/
structure Still (sb : SuperBlock) (base : Nat → Nat) (keep after : List Nat) (fs fs' : Fs) : Prop
    extends Moved sb base keep after fs fs' where
  same : ∀ i, SameFile i fs fs'

theorem Still.trans (first : Still sb base keep mid fs₁ fs₂)
    (second : Still sb base keep' after fs₂ fs₃) (sub : ∀ i, i ∈ keep → i ∈ keep') :
    Still sb base keep after fs₁ fs₃ :=
  ⟨first.toMoved.trans second.toMoved sub, fun i => (first.same i).trans (second.same i)⟩

theorem Still.refl (ok : fs.Ok sb) {held : List Nat} (holds : Held base held fs) (keep : List Nat) :
    Still sb base keep held fs fs :=
  ⟨.refl ok holds keep, fun i => .refl i fs⟩

theorem Held.perm {held held' : List Nat} (holds : Held base held fs)
    (same : held.Perm held') : Held base held' fs := fun i => by
  rw [holds i, same.count_eq]

/-- A reference that is held is counted. -/
theorem Held.ref_pos {held : List Nat} (holds : Held base (i :: held) fs) :
    1 ≤ (fs.itable i).ref := by
  have count := holds i
  rw [List.count_cons_self] at count
  omega

/-- What `iput` does: of all files only that of the inode can go, and it goes if
it has no links and this was the last reference. -/
structure Dropped (sb : SuperBlock) (base : Nat → Nat) (keep : List Nat) (i : Nat) (fs fs' : Fs) :
    Prop extends Moved sb base keep keep fs fs' where
  others : ∀ j, j ≠ i → SameFile j fs fs'
  gone : (fs.itable i).valid = true → (fs.node i).nlink = 0 → base i = 0 → i ∉ keep →
    (fs'.node i).type = .free

/-- The references and what is valid in memory are the same in both states. -/
def SameRefs (fs fs' : Fs) : Prop :=
  ∀ i, (fs'.itable i).ref = (fs.itable i).ref ∧ (fs'.itable i).valid = (fs.itable i).valid

theorem SameRefs.held {held : List Nat} (same : SameRefs fs fs') (holds : Held base held fs) :
    Held base held fs' := fun i => (same i).1 ▸ holds i

/-- An inode has got new fields; its type, its size and its bytes, and all other
files, are the same. -/
structure Relabels (sb : SuperBlock) (i : Nat) (node : Dinode) (fs fs' : Fs) : Prop where
  ok : fs'.Ok sb
  refs : SameRefs fs fs'
  others : ∀ j, j ≠ i → SameFile j fs fs'
  self : fs'.node i = node
  byte : ∀ o, fs'.byte i o = fs.byte i o

/-- The copy of an inode in memory is replaced by one that is not valid, or that
is the inode on disk. -/
theorem Ok.setInode (ok : fs.Ok sb) (i : Nat) (ip : Inode) (synced : ip.valid = true →
    ip.toDinode = fs.dinodes i ∧ (fs.dinodes i).type ≠ .free) :
    (fs.setInode i ip).Ok sb ∧ ∀ j, SameFile j fs (fs.setInode i ip) := by
  have self := setInode_itable_self fs i ip
  have others : ∀ j, j ≠ i → (fs.setInode i ip).itable j = fs.itable j := fun j other =>
    setInode_itable_of_ne fs other ip
  have node : ∀ j, (fs.setInode i ip).node j = fs.node j := by
    intro j
    by_cases same : j = i
    · subst same
      rw [ok.node_eq, Fs.node, self]
      split
      · rename_i valid
        exact (synced valid).1
      · rfl
    · exact node_congr (others j same) rfl
  have places : ∀ q, (fs.setInode i ip).owner q = fs.owner q := fun q =>
    owner_congr (addr_congr (node q.1) (fun _ _ _ => rfl) q.2)
  refine ⟨⟨?_, fun j valid => ?_, fun j valid => ?_⟩, fun j => .of_node (node j) fun o => ?_⟩
  · apply ok.intact.congr (show (fs.setInode i ip).bitmap = fs.bitmap from rfl) places
    · intro j
      rw [node]
    intro j bn typed below
    rw [node] at below
    exact ok.intact.present j bn typed below
  · by_cases same : j = i
    · subst same
      rw [self] at valid ⊢
      exact (synced valid).1.symm
    · rw [others j same] at valid ⊢
      exact ok.synced j valid
  · by_cases same : j = i
    · subst same
      rw [self] at valid ⊢
      obtain ⟨disk, typed⟩ := synced valid
      rw [disk]
      exact typed
    · rw [others j same] at valid ⊢
      exact ok.typed j valid
  · exact byte_congr (fun k => places (j, k)) (fun _ _ _ _ => rfl) o

/-- What a valid inode in memory has in common with the one on disk. -/
theorem Ok.disk (ok : fs.Ok sb) (valid : (fs.itable i).valid = true) :
    (fs.itable i).toDinode = fs.dinodes i ∧ (fs.dinodes i).type ≠ .free := by
  refine ⟨(ok.synced i valid).symm, ?_⟩
  rw [ok.synced i valid]
  exact ok.typed i valid

/-- The references after the count of one inode has been set. -/
theorem Held.setInode {held held' : List Nat} (holds : Held base held fs)
    (others : ∀ j, j ≠ i → held'.count j = held.count j)
    (self : ip.ref = (base i + held'.count i : Nat)) : Held base held' (fs.setInode i ip) := by
  intro j
  by_cases same : j = i
  · subst same
    rw [setInode_itable_self]
    exact self
  · rw [setInode_itable_of_ne fs same, others j same]
    exact holds j

end Fs

/-! ### The operations -/

/-- How an operation on a consistent file system can stop: never with a block that
is freed twice, and with the panics of `ilock` and `sys_unlink` only where the two
propositions hold. -/
def Stops (untyped unlinked : Prop) : FsPanic → Prop
  | .freeingFreeBlock => False
  | .ilockNoType => untyped
  | .unlinkNlink => unlinked
  | _ => True

variable {held : List Nat} {untyped unlinked : Prop} {fail : FsPanic → Prop}

open Fs

section

variable (ok : fs.Ok sb) (holds : Held base held fs)
include ok holds

/-- One more reference to an inode. -/
theorem Fs.Still.addRef :
    Still sb base held (i :: held) fs
      (fs.setInode i { fs.itable i with ref := (fs.itable i).ref + 1 }) := by
  obtain ⟨ok', same⟩ := ok.setInode i { fs.itable i with ref := (fs.itable i).ref + 1 }
    fun valid => ok.disk valid
  refine ⟨⟨ok', ?_, fun j _ valid => ?_, .of_same same, fun j _ => same j⟩, same⟩
  · apply holds.setInode
    · intro j other
      rw [List.count_cons_of_ne (Ne.symm other)]
    rw [List.count_cons_self]
    have := holds i
    push_cast at this ⊢
    omega
  by_cases self : j = i
  · subst self
    rw [setInode_itable_self]
    exact valid
  · rw [setInode_itable_of_ne fs self]
    exact valid

theorem idup_spec : wp (idup i) (fun _ fs' => Still sb base held (i :: held) fs fs') fail fs := by
  exact .addRef ok holds

theorem iget_spec :
    wp (iget sb i) (fun _ fs' => Still sb base held (i :: held) fs fs') (Stops untyped unlinked)
      fs := by
  simp only [iget, wp_bind, wp_get]
  split
  · trivial
  split
  · exact .addRef ok holds
  rename_i unused
  split
  · trivial
  -- The entry is made anew: no reference to the inode was held.
  have count := holds i
  have none : base i = 0 ∧ held.count i = 0 := by omega
  have absent : i ∉ held := List.count_eq_zero.mp none.2
  obtain ⟨ok', same⟩ := ok.setInode i { fs.itable i with ref := 1, valid := false }
    (by simp)
  refine ⟨⟨ok', ?_, fun j mem valid => ?_, .of_same same, fun j _ => same j⟩, same⟩
  · apply holds.setInode
    · intro j other
      rw [List.count_cons_of_ne (Ne.symm other)]
    · rw [List.count_cons_self, none.1, none.2]
      rfl
  · have other : j ≠ i := fun self => absent (self ▸ mem)
    rw [setInode_itable_of_ne fs other]
    exact valid

/-- After `ilock` the inode in memory is valid. -/
theorem ilock_spec (typed : (fs.node i).type = .free → untyped) :
    wp (ilock sb i) (fun _ fs' => Still sb base held held fs fs' ∧ (fs'.itable i).valid = true)
      (Stops untyped unlinked) fs := by
  simp only [ilock, wp_bind, wp_get]
  split
  · trivial
  split
  · rename_i valid
    exact ⟨.refl ok holds held, valid⟩
  split
  · trivial
  split
  · rename_i free
    apply typed
    rw [ok.node_eq]
    exact free
  rename_i allocated
  obtain ⟨ok', same⟩ := ok.setInode i
    { toDinode := fs.dinodes i, ref := (fs.itable i).ref, valid := true }
    fun _ => ⟨rfl, allocated⟩
  refine ⟨⟨⟨ok', ?_, fun j _ valid => ?_, .of_same same, fun j _ => same j⟩, same⟩, ?_⟩
  · exact holds.setInode (fun _ _ => rfl) (holds i)
  · by_cases self : j = i
    · subst self
      rw [setInode_itable_self]
    · rw [setInode_itable_of_ne fs self]
      exact valid
  · rw [setInode_itable_self]

end

/-- The end of `iput`: one reference less. -/
theorem Fs.Dropped.dropRef (ok : fs.Ok sb) (holds : Held base (i :: held) fs)
    (stays : ¬ ((fs.itable i).ref = 1 ∧ (fs.itable i).valid = true ∧ (fs.itable i).nlink = 0)) :
    Dropped sb base held i fs (fs.setInode i { fs.itable i with ref := (fs.itable i).ref - 1 }) := by
  obtain ⟨ok', same⟩ := ok.setInode i { fs.itable i with ref := (fs.itable i).ref - 1 }
    fun valid => ok.disk valid
  refine ⟨⟨ok', ?_, fun j _ valid => ?_, .of_same same, fun j _ => same j⟩, fun j _ => same j, ?_⟩
  · apply holds.setInode
    · intro j other
      rw [List.count_cons_of_ne (Ne.symm other)]
    have := holds i
    rw [List.count_cons_self] at this
    push_cast at this ⊢
    omega
  · by_cases self : j = i
    · subst self
      rw [setInode_itable_self]
      exact valid
    · rw [setInode_itable_of_ne fs self]
      exact valid
  intro valid nlink alone absent
  rw [node_of_valid valid] at nlink
  refine (stays ⟨?_, valid, nlink⟩).elim
  rw [holds i, List.count_cons_self, List.count_eq_zero.mpr absent, alone]
  rfl

/-- A truncated inode has no blocks, and they are free. -/
theorem Truncated.ok (ok : fs.Ok sb) (valid : (fs.itable i).valid = true)
    (cut : Truncated i fs fs') : fs'.Ok sb := by
  have valid' : (fs'.itable i).valid = true := by
    rw [cut.self]
    exact valid
  have node := node_of_valid valid'
  refine ⟨?_, fun j validJ => ?_, fun j validJ => ?_⟩
  · apply ok.intact.drop cut.bitmap
    · intro k
      apply owner_eq_none.mpr
      unfold Fs.addr
      rw [node]
      split
      · rfl
      split
      · rename_i small
        exact cut.addrs k small
      · rw [if_pos (.inl (cut.addrs ndirect le_rfl))]
    · exact fun j other => cut.node_of_ne other
    · exact fun j k other => cut.owner_of_ne other k
    · intro _
      rw [node, cut.self]
  · by_cases same : j = i
    · subst same
      exact cut.written
    rw [cut.others j same] at validJ ⊢
    rw [cut.disk j same]
    exact ok.synced j validJ
  by_cases same : j = i
  · subst same
    rw [cut.self]
    exact ok.typed j valid
  · rw [cut.others j same] at validJ ⊢
    exact ok.typed j validJ

theorem Truncated.sameRefs (cut : Truncated i fs fs') : SameRefs fs fs' := by
  intro j
  by_cases same : j = i
  · subst same
    rw [cut.self]
    exact ⟨rfl, rfl⟩
  · rw [cut.others j same]
    exact ⟨rfl, rfl⟩

/-- An inode that has been truncated is marked free on disk and leaves memory. -/
theorem Truncated.free (cut : Truncated i fs fs₁) (ip : Inode)
    (ok : fs.Ok sb) (valid : (fs.itable i).valid = true) (nlink : (fs.node i).nlink = 0)
    (invalid : ip.valid = false) :
    let fs' := (fs₁.store i { fs₁.itable i with type := .free }).setInode i ip
    fs'.Ok sb ∧ Drops fs fs' ∧ (∀ j, j ≠ i → SameFile j fs fs') ∧ (fs'.node i).type = .free := by
  intro fs'
  have memory : ∀ j, j ≠ i → fs'.itable j = fs.itable j := fun j other => by
    rw [setInode_itable_of_ne _ other, store_itable_of_ne other, cut.others j other]
  have disk : ∀ j, j ≠ i → fs'.dinodes j = fs.dinodes j := fun j other => by
    rw [show fs'.dinodes j = _ from store_dinodes_of_ne other, cut.disk j other]
  have self : fs'.itable i = ip := setInode_itable_self _ i ip
  have free : (fs'.node i).type = .free := by
    rw [Fs.node, self, invalid]
    exact congrArg Dinode.type store_dinodes_self
  have unlinked : (fs'.node i).nlink = 0 := by
    rw [node_of_valid valid] at nlink
    rw [Fs.node, self, invalid]
    refine (congrArg Dinode.nlink store_dinodes_self).trans ?_
    rw [cut.self]
    exact nlink
  have node : ∀ j, j ≠ i → fs'.node j = fs.node j := fun j other =>
    node_congr (memory j other) (disk j other)
  have data : fs'.data = fs.data := cut.data
  have places : ∀ j k, j ≠ i → fs'.owner (j, k) = fs.owner (j, k) := fun j k other =>
    owner_congr (addr_congr (node j other) (fun _ _ _ => by rw [data]) k)
  have marked : ∀ b, fs'.bitmap b = true ↔
      fs.bitmap b = true ∧ ∀ k, fs.owner (i, k) ≠ some b := cut.bitmap
  have sameFile : ∀ j, j ≠ i → SameFile j fs fs' := fun j other =>
    .of_node (node j other) (byte_congr (fun k => places j k other) fun _ _ _ _ => by rw [data])
  refine ⟨⟨?_, fun j valid => ?_, fun j valid => ?_⟩, fun j => ?_, sameFile, free⟩
  · apply ok.intact.drop marked _ node places (fun typed => absurd free typed)
    intro k
    apply owner_eq_none.mpr
    rw [Fs.addr, if_pos free]
  · by_cases same : j = i
    · subst same
      rw [self, invalid] at valid
      cases valid
    · rw [memory j same] at valid ⊢
      rw [disk j same]
      exact ok.synced j valid
  · by_cases same : j = i
    · subst same
      rw [self, invalid] at valid
      cases valid
    · rw [memory j same] at valid ⊢
      exact ok.typed j valid
  · by_cases same : j = i
    · subst same
      exact .inr ⟨nlink, free, unlinked⟩
    · exact .inl (sameFile j same)

/-- `iput` drops a reference; an inode without links goes with its last one. -/
theorem iput_spec (ok : fs.Ok sb) (holds : Held base (i :: held) fs) :
    wp (iput i) (fun _ fs' => Dropped sb base held i fs fs') fail fs := by
  simp only [iput, wp_bind, wp_get]
  split
  · rename_i last
    obtain ⟨ref, valid, _⟩ := last
    simp only [wp_bind]
    apply wp_imp (itrunc_spec ok.intact valid (ok.allocated valid))
    intro _ fs₁ cut
    simp only [wp_modify, Fs.wp_iupdate, setInode_itable_self, setInode_setInode, store_itable_self]
    have count := holds i
    rw [List.count_cons_self] at count
    have alone : base i = 0 ∧ held.count i = 0 := by omega
    have absent : i ∉ held := List.count_eq_zero.mp alone.2
    have nlink' : (fs.node i).nlink = 0 := by rwa [node_of_valid valid]
    generalize dropped : { fs₁.itable i with
      type := InodeType.free, ref := (fs₁.itable i).ref - 1, valid := false } = ip
    obtain ⟨ok', drops, others, free⟩ := cut.free ip ok valid nlink'
      (by rw [← dropped])
    refine ⟨⟨ok', fun j => ?_, fun j mem validJ => ?_, drops, fun j shared => others j ?_⟩,
      others, fun _ _ _ _ => free⟩
    · by_cases same : j = i
      · subst same
        rw [setInode_itable_self, ← dropped, cut.self, alone.1, alone.2]
        exact (congrArg (· - 1) ref).trans rfl
      · rw [setInode_itable_of_ne _ same, store_itable_of_ne same, cut.others j same]
        have := holds j
        rwa [List.count_cons_of_ne (Ne.symm same)] at this
    · have other : j ≠ i := fun same => absent (same ▸ mem)
      rw [setInode_itable_of_ne _ other, store_itable_of_ne other, cut.others j other]
      exact validJ
    · rintro rfl
      omega
  · rename_i stays
    exact .dropRef ok holds stays

/-- An inode is changed in memory and written back. -/
theorem Fs.Ok.relabels (ok : fs.Ok sb) (valid : (fs.itable i).valid = true) (ip : Inode)
    (ref : ip.ref = (fs.itable i).ref) (stays : ip.valid = true)
    (type : ip.type = (fs.itable i).type) (size : ip.size = (fs.itable i).size)
    (addrs : ip.addrs = (fs.itable i).addrs) : Relabels sb i ip.toDinode fs (fs.store i ip) := by
  have node := node_of_valid valid
  have places : ∀ q, (fs.store i ip).owner q = fs.owner q :=
    owner_store (by rw [node, type]) (by rw [node, addrs])
  refine ⟨?_, fun j => ?_, fun j other => ?_, node_store_self, ?_⟩
  · apply Fs.Ok.of_store ok.intact
    · exact fun j _ validJ => ⟨ok.synced j validJ, ok.typed j validJ⟩
    · rw [node, type]
    · rw [node, addrs]
    · exact ok.allocated valid
    intro o _
    apply ok.intact.has (ok.allocated valid)
    rwa [node, ← size]
  · by_cases same : j = i
    · subst same
      rw [store_itable_self]
      exact ⟨ref, stays.trans valid.symm⟩
    · rw [store_itable_of_ne same]
      exact ⟨rfl, rfl⟩
  · apply SameFile.of_node (node_store_of_ne other)
    exact byte_congr (fun k => places (j, k)) fun _ _ _ _ => rfl
  · exact byte_congr (fun k => places (i, k)) fun _ _ _ _ => rfl

theorem setNlink_spec (ok : fs.Ok sb) (valid : (fs.itable i).valid = true) (nlink : Int16) :
    wp (setNlink i nlink) (fun _ fs' => Relabels sb i { fs.node i with nlink := nlink } fs fs')
      fail fs := by
  simp only [setNlink, wp_bind, wp_modify, Fs.wp_iupdate, node_of_valid valid]
  exact ok.relabels valid { fs.itable i with nlink := nlink } rfl valid rfl rfl rfl

/-- The new inode that `ialloc` has found: it was free, and is empty. -/
structure Allocated (sb : SuperBlock) (base : Nat → Nat) (type : InodeType) (keep : List Nat) (i : Nat)
    (fs fs' : Fs) : Prop where
  number : 1 ≤ i ∧ i < sb.ninodes
  wasFree : (fs.node i).type = .free
  ok : fs'.Ok sb
  held : Held base (i :: keep) fs'
  valid : ∀ j, j ∈ keep → (fs.itable j).valid = true → (fs'.itable j).valid = true
  others : ∀ j, j ≠ i → SameFile j fs fs'
  type : (fs'.node i).type = type
  nlink : (fs'.node i).nlink = 0
  size : (fs'.node i).size = 0

/-- A free inode is given a type on disk. -/
theorem Fs.Ok.newInode (ok : fs.Ok sb) (free : (fs.dinodes i).type = .free) (type : InodeType) :
    let fs' : Fs := { fs with dinodes := update fs.dinodes i { type := type } }
    fs'.Ok sb ∧ (∀ j, j ≠ i → SameFile j fs fs') ∧ fs'.node i = { type := type } := by
  intro fs'
  have invalid : (fs.itable i).valid = false := by
    rw [← Bool.not_eq_true]
    exact fun valid => (ok.disk valid).2 free
  have disk : ∀ j, j ≠ i → fs'.dinodes j = fs.dinodes j := fun j other =>
    update_of_ne other _ _
  have self : fs'.node i = { type := type } := by
    rw [Fs.node, show fs'.itable i = fs.itable i from rfl, invalid]
    exact update_self _ _ _
  have node : ∀ j, j ≠ i → fs'.node j = fs.node j := fun j other => node_congr rfl (disk j other)
  have places : ∀ q, fs'.owner q = fs.owner q := by
    rintro ⟨j, k⟩
    apply owner_congr
    by_cases same : j = i
    · subst same
      rw [Fs.addr, Fs.addr, self, ok.node_eq, if_pos free]
      simp
    · exact addr_congr (node j same) (fun _ _ _ => rfl) k
  have exact : Ownership.Exact (Consistent.Used sb fs') fs'.owner := by
    rw [funext places]
    exact ok.intact.exact
  refine ⟨⟨.of_exact ok.intact.metadata exact fun j bn typed below => ?_,
    fun j valid => ?_, ok.typed⟩, fun j other => ?_, self⟩
  · by_cases same : j = i
    · subst same
      rw [self] at below
      exact (Nat.not_lt_zero _ below).elim
    · rw [node j same] at typed below
      rw [places]
      exact ok.intact.present j bn typed below
  · by_cases same : j = i
    · subst same
      rw [invalid] at valid
      cases valid
    · rw [disk j same]
      exact ok.synced j valid
  · apply SameFile.of_node (node j other)
    exact byte_congr (fun k => places (j, k)) fun _ _ _ _ => rfl

theorem ialloc_spec (ok : fs.Ok sb) (holds : Held base held fs) (type : InodeType) :
    wp (ialloc sb type) (fun r fs' => (r = none ∧ fs' = fs) ∨
      ∃ i, r = some i ∧ Allocated sb base type held i fs fs') (Stops untyped unlinked) fs := by
  simp only [ialloc, wp_bind, wp_get]
  cases found : (List.range sb.ninodes).find? fun i => 1 ≤ i && (fs.dinodes i).type == .free with
  | none => exact .inl ⟨rfl, rfl⟩
  | some i =>
    have chosen := List.find?_some found
    rw [Bool.and_eq_true, decide_eq_true_eq, beq_iff_eq] at chosen
    obtain ⟨pos, free⟩ := chosen
    have inRange : i < sb.ninodes := List.mem_range.mp (List.mem_of_find?_eq_some found)
    obtain ⟨ok₁, others, self⟩ := ok.newInode free type
    simp only [wp_bind, wp_set]
    apply wp_imp (iget_spec ok₁ (show Held base held _ from holds))
    intro _ _ got
    refine .inr ⟨i, rfl, ⟨pos, inRange⟩, ?_, got.ok, got.held, got.valid,
      fun j other => (others j other).trans (got.same j), ?_, ?_, ?_⟩
    · rw [ok.node_eq, free]
    · rw [(got.same i).type, self]
    · rw [(got.same i).nlink, self]
    · rw [(got.same i).size, self]

variable {src : Nat → Option UInt8}

/-- `writei` leaves the other files and all references the same. -/
theorem Wrote.sameFile {off n tot : Nat} (wrote : Wrote sb i src off n tot fs fs')
    (other : j ≠ i) : SameFile j fs fs' := by
  apply SameFile.of_node (node_congr (wrote.memory j other) (wrote.disk j other))
  apply byte_congr
  · exact fun k => wrote.elsewhere j k other
  · exact fun k b notTable here => wrote.data j k b other notTable here

theorem Wrote.sameRefs {off n tot : Nat} (wrote : Wrote sb i src off n tot fs fs') :
    SameRefs fs fs' := by
  intro j
  by_cases same : j = i
  · subst same
    rw [wrote.self]
    exact ⟨rfl, rfl⟩
  · rw [wrote.memory j same]
    exact ⟨rfl, rfl⟩

end CustomXv6

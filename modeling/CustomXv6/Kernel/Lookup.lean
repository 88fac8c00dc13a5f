/-
Module: CustomXv6.Kernel.Lookup
Purpose: The entries of a directory, looking names up and walking paths.
Trusted boundary: none
Main exports: dirlookup_spec, dirlink_spec, namex_spec
-/
import CustomXv6.Kernel.References
import Mathlib.Data.List.GetD

namespace CustomXv6

open Hoare

/-! ### Entries as bytes -/

variable {de : Dirent}

namespace Dirent

theorem ofBytes_congr {f g : Nat → UInt8} (same : ∀ k, k < direntSize → f k = g k) :
    ofBytes f = ofBytes g := by
  have names : (List.range dirsiz).map (fun k => f (k + 2)) =
      (List.range dirsiz).map (fun k => g (k + 2)) := by
    apply List.map_congr_left
    intro k mem
    exact same _ (Nat.add_lt_add_right (List.mem_range.mp mem) 2)
  simp only [ofBytes, names, same 0 (by decide), same 1 (by decide)]

/-- A name as the code stores it: at most `DIRSIZ` bytes, none of them zero. -/
def NameOk (name : Name) : Prop := name.length ≤ dirsiz ∧ ∀ c, c ∈ name → c ≠ 0

end Dirent

/-! ### Reading entries -/

def Fs.dirent (fs : Fs) (i k : Nat) : Dirent :=
  Dirent.ofBytes fun b => fs.byte i (direntSize * k + b)

def Dirent.Matches (name : Name) (de : Dirent) : Prop := de.inum ≠ 0 ∧ namecmp name de.name = true

open Fs

variable {sb : SuperBlock} {base : Nat → Nat} {fs : Fs} {dp : Nat} {held : List Nat}
  {untyped unlinked : Prop}
variable {fs' : Fs} {path rest : Path} {name : Name}

section

variable (ok : fs.Ok sb)
include ok

theorem readDirent_spec (valid : (fs.itable dp).valid = true) (k : Nat) (failure : FsPanic) :
    wp (readDirent sb dp (direntSize * k) failure) (fun de fs' => fs' = fs ∧
      direntSize * k + direntSize ≤ (fs.itable dp).size ∧ de = fs.dirent dp k)
      (· = failure) fs := by
  simp only [readDirent, wp_bind]
  apply wp_imp (readi_spec ok valid)
  rintro ⟨r, _⟩ fs' ⟨rfl, res⟩
  split_ifs with full
  · rfl
  rw [not_not] at full
  have read := res fun _ => rfl
  split at read
  · cases read
    cases full
  rename_i inside
  obtain ⟨rfl, rfl⟩ := Prod.mk.inj read
  have long : min direntSize ((fs'.itable dp).size - direntSize * k) = direntSize :=
    Int.ofNat.inj full
  refine ⟨rfl, by omega, Dirent.ofBytes_congr fun b below => ?_⟩
  rw [long, Fs.bytesFrom, List.getD_eq_getElem _ _ (by simpa using below)]
  simp

theorem dirlookupLoop_spec (holds : Held base held fs)
    (valid : (fs.itable dp).valid = true) (name : Name) (fuel : Nat) : ∀ k,
    (fs.itable dp).size ≤ direntSize * (k + fuel) →
    wp (dirlookupLoop sb dp name fuel (direntSize * k)) (fun r fs' =>
      (r = none ∧ fs' = fs ∧ ∀ m, k ≤ m → direntSize * m < (fs.itable dp).size →
        ¬ (fs.dirent dp m).Matches name) ∨
      ∃ x m, r = some (x, direntSize * m) ∧ direntSize * m + direntSize ≤ (fs.itable dp).size ∧
        (fs.dirent dp m).Matches name ∧ (fs.dirent dp m).inum = x ∧
        Still sb base held (x :: held) fs fs') (Stops untyped unlinked) fs := by
  induction fuel with
  | zero =>
    intro k enough
    rw [Nat.add_zero] at enough
    refine .inl ⟨rfl, rfl, fun m later below => ?_⟩
    have : direntSize * k ≤ direntSize * m := Nat.mul_le_mul_left _ later
    omega
  | succ _ ih =>
    intro k _
    simp only [dirlookupLoop, wp_bind, wp_get]
    split_ifs with done
    · rw [wp_bind]
      apply wp_mono (readDirent_spec ok valid k .dirlookupRead)
      · rintro _ fs' ⟨rfl, inside, rfl⟩
        split
        · rename_i found
          simp only [wp_bind]
          apply wp_imp (iget_spec ok holds)
          intro _ fs' still
          exact .inr ⟨_, k, rfl, inside, found, rfl, still⟩
        rename_i differs
        have next := ih (k + 1) (by rwa [Nat.add_right_comm])
        apply wp_imp next
        rintro r _ (⟨rfl, rfl, rest⟩ | found)
        · refine .inl ⟨rfl, rfl, fun m later below => ?_⟩
          cases Nat.eq_or_lt_of_le later with
          | inl same => exact same ▸ differs
          | inr after => exact rest m after below
        · exact .inr found
      · rintro e rfl
        trivial
    · refine .inl ⟨rfl, rfl, fun m later below => ?_⟩
      have : direntSize * k ≤ direntSize * m := Nat.mul_le_mul_left _ later
      omega

/-- `dirlookup` finds an entry with the name and takes a reference to its inode,
or there is no such entry. -/
theorem dirlookup_spec (holds : Held base held fs)
    (valid : (fs.itable dp).valid = true) (name : Name) :
    wp (dirlookup sb dp name) (fun r fs' => (fs.itable dp).type = .dir ∧
      ((r = none ∧ fs' = fs ∧ ∀ m, direntSize * m < (fs.itable dp).size →
        ¬ (fs.dirent dp m).Matches name) ∨
      ∃ x m, r = some (x, direntSize * m) ∧ direntSize * m + direntSize ≤ (fs.itable dp).size ∧
        (fs.dirent dp m).Matches name ∧ (fs.dirent dp m).inum = x ∧
        Still sb base held (x :: held) fs fs')) (Stops untyped unlinked) fs := by
  simp only [dirlookup, wp_bind, wp_get]
  split_ifs with directory
  · trivial
  rw [not_not] at directory
  have enough : (fs.itable dp).size ≤
      direntSize * (0 + ((fs.itable dp).size / direntSize + 1)) := by
    simp only [direntSize]
    omega
  apply wp_imp (dirlookupLoop_spec ok holds valid name _ 0 enough)
  rintro r _ (⟨rfl, rfl, absent⟩ | found)
  · exact ⟨directory, .inl ⟨rfl, rfl, fun m => absent m (Nat.zero_le m)⟩⟩
  · exact ⟨directory, .inr found⟩

/-- The loop of `dirlink` stops at a free entry or behind the last one. -/
theorem dirlinkLoop_spec (valid : (fs.itable dp).valid = true) (fuel : Nat) :
    ∀ k, (fs.itable dp).size ≤ direntSize * (k + fuel) →
    wp (dirlinkLoop sb dp fuel (direntSize * k)) (fun off fs' => fs' = fs ∧
      ∃ m, off = direntSize * m ∧ ((direntSize * m + direntSize ≤ (fs.itable dp).size ∧
        (fs.dirent dp m).inum = 0) ∨ (fs.itable dp).size ≤ direntSize * m)) (Stops untyped unlinked) fs := by
  induction fuel with
  | zero =>
    intro k enough
    exact ⟨rfl, k, rfl, .inr enough⟩
  | succ _ ih =>
    intro k _
    simp only [dirlinkLoop, wp_bind, wp_get]
    split_ifs with done
    · rw [wp_bind]
      apply wp_mono (readDirent_spec ok valid k .dirlinkRead)
      · rintro _ _ ⟨rfl, inside, rfl⟩
        split
        · rename_i free
          exact ⟨rfl, k, rfl, .inl ⟨inside, free⟩⟩
        · have next := ih (k + 1) (by rwa [Nat.add_right_comm])
          rwa [Nat.mul_succ] at next
      · rintro e rfl
        trivial
    · exact ⟨rfl, k, rfl, .inr (Nat.le_of_not_lt done)⟩

/-- `isdirempty` says whether all entries from the third on are free. -/
theorem isdiremptyLoop_spec (valid : (fs.itable dp).valid = true) (fuel : Nat) :
    ∀ k, (fs.itable dp).size ≤ direntSize * (k + fuel) →
    wp (isdiremptyLoop sb dp fuel (direntSize * k)) (fun r fs' => fs' = fs ∧
      (r = true → ∀ m, k ≤ m → direntSize * m < (fs.itable dp).size →
        (fs.dirent dp m).inum = 0)) (Stops untyped unlinked) fs := by
  induction fuel with
  | zero =>
    intro k enough
    rw [Nat.add_zero] at enough
    refine ⟨rfl, fun _ m later below => ?_⟩
    have : direntSize * k ≤ direntSize * m := Nat.mul_le_mul_left _ later
    omega
  | succ _ ih =>
    intro k _
    simp only [isdiremptyLoop, wp_bind, wp_get]
    split_ifs with done
    · rw [wp_bind]
      apply wp_mono (readDirent_spec ok valid k .isdiremptyRead)
      · rintro _ fs' ⟨rfl, _, rfl⟩
        split
        · exact ⟨rfl, (by simp)⟩
        rename_i free
        rw [not_not] at free
        have next := ih (k + 1) (by rwa [Nat.add_right_comm])
        apply wp_imp next
        rintro r _ ⟨rfl, rest⟩
        refine ⟨rfl, fun empty m later below => ?_⟩
        cases Nat.eq_or_lt_of_le later with
        | inl same => exact same ▸ free
        | inr after => exact rest empty m after below
      · rintro e rfl
        trivial
    · refine ⟨rfl, fun _ m later below => ?_⟩
      have : direntSize * k ≤ direntSize * m := Nat.mul_le_mul_left _ later
      omega

theorem isdirempty_spec (valid : (fs.itable dp).valid = true) :
    wp (isdirempty sb dp) (fun r fs' => fs' = fs ∧ (r = true → ∀ m, 2 ≤ m →
      direntSize * m < (fs.itable dp).size → (fs.dirent dp m).inum = 0)) (Stops untyped unlinked) fs := by
  have enough : (fs.itable dp).size ≤
      direntSize * (2 + ((fs.itable dp).size / direntSize + 1)) := by
    simp only [direntSize]
    omega
  have loop := @isdiremptyLoop_spec sb fs dp untyped unlinked ok valid _ 2 enough
  exact loop

/-! ### Writing entries -/

end

/-- The entry `m` of directory `dp` has been set; everything else is the same. -/
structure Put (sb : SuperBlock) (dp m : Nat) (de : Dirent) (fs fs' : Fs) : Prop where
  ok : fs'.Ok sb
  refs : SameRefs fs fs'
  others : ∀ j, j ≠ dp → SameFile j fs fs'
  type : (fs'.node dp).type = (fs.node dp).type
  nlink : (fs'.node dp).nlink = (fs.node dp).nlink
  inside : direntSize * m ≤ (fs.node dp).size
  size : (fs'.node dp).size = max (fs.node dp).size (direntSize * m + direntSize)
  entry : fs'.dirent dp m = Dirent.ofBytes de.bytes
  kept : ∀ k, k ≠ m → direntSize * k + direntSize ≤ (fs.node dp).size →
    fs'.dirent dp k = fs.dirent dp k

structure Unchanged (sb : SuperBlock) (fs fs' : Fs) : Prop where
  ok : fs'.Ok sb
  refs : SameRefs fs fs'
  files : ∀ j, SameFile j fs fs'

theorem Wrote.put {m : Nat} (valid : (fs.itable dp).valid = true)
    (inside : direntSize * m ≤ (fs.itable dp).size)
    (wrote : Wrote sb dp (fun k => some (de.bytes k)) (direntSize * m) direntSize direntSize
      fs fs') : Put sb dp m de fs fs' := by
  have valid' : (fs'.itable dp).valid = true := (wrote.sameRefs dp).2.trans valid
  have node := node_of_valid valid
  have node' := node_of_valid valid'
  obtain ⟨written, kept⟩ := wrote.bytes fun _ _ => rfl
  refine ⟨wrote.ok, wrote.sameRefs, fun j other => wrote.sameFile other, ?_, ?_, ?_, ?_, ?_,
    fun k other within => ?_⟩
  · rw [node, node', wrote.self]
  · rw [node, node', wrote.self]
  · rwa [node]
  · rw [node, node', wrote.self]
  · apply Dirent.ofBytes_congr
    intro k below
    rw [written _ (Nat.le_add_right _ k) (Nat.add_lt_add_left below _), Nat.add_sub_cancel_left]
    rfl
  apply Dirent.ofBytes_congr
  intro b below
  rw [node] at within
  apply kept
  · omega
  -- Two entries do not overlap.
  simp only [direntSize] at below ⊢
  omega

theorem Wrote.unchanged {src : Nat → Option UInt8} {off n : Nat}
    (valid : (fs.itable dp).valid = true) (inside : off ≤ (fs.itable dp).size)
    (mapped : ∀ k, k < n → (src k).isSome = true) (wrote : Wrote sb dp src off n 0 fs fs') :
    Unchanged sb fs fs' := by
  refine ⟨wrote.ok, wrote.sameRefs, fun j => ?_⟩
  by_cases same : j = dp
  · subst same
    have valid' : (fs'.itable j).valid = true := (wrote.sameRefs j).2.trans valid
    have node := node_of_valid valid
    have node' := node_of_valid valid'
    refine ⟨by rw [node, node', wrote.self], by rw [node, node', wrote.self], ?_, ?_⟩
    · rw [node, node', wrote.self]
      exact Nat.max_eq_left inside
    · intro o below
      rw [node] at below
      exact (wrote.bytes mapped).2 o below (Nat.lt_or_ge o off)
  · exact wrote.sameFile same

/-- An entry is written as a whole or not at all. -/
theorem writeDirent_spec (ok : fs.Ok sb) (valid : (fs.itable dp).valid = true) (m : Nat)
    {fail : FsPanic → Prop} :
    wp (writeDirent sb dp (direntSize * m) de) (fun r fs' =>
      (r = direntSize ∧ Put sb dp m de fs fs') ∨ (r ≠ direntSize ∧ Unchanged sb fs fs'))
      fail fs := by
  apply wp_imp (writei_spec ok valid)
  rintro r _ (⟨rfl, rfl⟩ | ⟨_, rfl, _, inside, wrote⟩)
  · exact .inr ⟨by decide, ok, fun _ => ⟨rfl, rfl⟩, fun j => .refl j _⟩
  have fits : direntSize * m % bsize + direntSize ≤ bsize := by
    simp only [direntSize, bsize]
    omega
  cases wrote.whole fits with
  | inl nothing =>
    subst nothing
    exact .inr ⟨by decide, wrote.unchanged valid inside fun _ _ => rfl⟩
  | inr all =>
    subst all
    exact .inl ⟨rfl, wrote.put valid inside⟩

theorem Unchanged.moved (kept : Unchanged sb fs fs') (holds : Held base held fs)
    (keep : List Nat) : Moved sb base keep held fs fs' :=
  ⟨kept.ok, kept.refs.held holds,
    fun j _ valid => (kept.refs j).2.trans valid, .of_same kept.files,
    fun j _ => kept.files j⟩

/-- What `dirlink` has done when it succeeds: there was no entry with the name,
and a free entry, or a new one at the end, has been set. -/
structure Linked (sb : SuperBlock) (dp : Nat) (name : Name) (inum m : Nat) (fs fs' : Fs) :
    Prop where
  directory : (fs.node dp).type = .dir
  absent : ∀ k, direntSize * k < (fs.node dp).size → ¬ (fs.dirent dp k).Matches name
  place : (direntSize * m + direntSize ≤ (fs.node dp).size ∧ (fs.dirent dp m).inum = 0) ∨
    direntSize * m = (fs.node dp).size
  put : Put sb dp m { inum := inum, name := name.take dirsiz } fs fs'

theorem dirlink_spec (ok : fs.Ok sb) (holds : Held base held fs)
    (valid : (fs.itable dp).valid = true) (name : Name) (inum : Nat) :
    wp (dirlink sb dp name inum) (fun r fs' =>
      (r = true ∧ ∃ m, Linked sb dp name inum m fs fs') ∨
      (r = false ∧ Moved sb base held held fs fs')) (Stops untyped unlinked) fs := by
  have node := node_of_valid valid
  simp only [dirlink, wp_bind]
  apply wp_imp (dirlookup_spec ok holds valid name)
  rintro r fs' ⟨directory, ⟨rfl, rfl, absent⟩ | ⟨x, m, rfl, _, _, _, still⟩⟩
  · simp only [wp_bind, wp_get]
    have enough : (fs'.itable dp).size ≤
        direntSize * (0 + ((fs'.itable dp).size / direntSize + 1)) := by
      simp only [direntSize]
      omega
    apply wp_imp (dirlinkLoop_spec ok valid _ 0 enough)
    rintro _ _ ⟨rfl, m, rfl, place⟩
    apply wp_imp (writeDirent_spec ok valid m)
    rintro r fs'' (⟨rfl, put⟩ | ⟨failed, kept⟩)
    · refine .inl ⟨rfl, m, by rw [node]; exact directory, by rw [node]; exact absent, ?_, put⟩
      cases place with
      | inl free =>
        rw [node]
        exact .inl free
      | inr => exact .inr (Nat.le_antisymm put.inside (by rwa [node]))
    · refine .inr ⟨?_, kept.moved holds held⟩
      exact beq_eq_false_iff_ne.mpr failed
  · simp only [wp_bind]
    apply wp_imp (iput_spec still.ok still.held)
    intro _ _ moved
    exact .inr ⟨rfl, still.toMoved.trans moved.toMoved fun _ mem => mem⟩

/-! ### Paths -/

theorem Fs.SameFile.dirent {i k : Nat} (same : SameFile i fs fs')
    (inside : direntSize * k + direntSize ≤ (fs.node i).size) : fs'.dirent i k = fs.dirent i k := by
  apply Dirent.ofBytes_congr
  intro b _
  exact same.byte _ (by omega)

/-- The entries of a directory with links name inodes with links. -/
def Fs.Closed (fs : Fs) : Prop :=
  ∀ d k, (fs.node d).type = .dir → 0 < (fs.node d).nlink →
    direntSize * k + direntSize ≤ (fs.node d).size → (fs.dirent d k).inum ≠ 0 →
    0 < (fs.node (fs.dirent d k).inum).nlink

theorem Fs.Drops.sameFile {i : Nat} (drops : Drops fs fs') (linked : 0 < (fs.node i).nlink) :
    SameFile i fs fs' := by
  cases drops i with
  | inl same => exact same
  | inr freed =>
    rw [freed.1] at linked
    exact absurd linked (by decide)

theorem Fs.Closed.drops (closed : fs.Closed) (drops : Drops fs fs') : fs'.Closed := by
  intro d k directory linked inside live
  cases drops d with
  | inl same =>
    rw [same.type] at directory
    rw [same.nlink] at linked
    rw [same.size] at inside
    rw [same.dirent inside] at live ⊢
    have target := closed d k directory linked inside live
    rwa [(drops.sameFile target).nlink]
  | inr freed =>
    rw [freed.2.1] at directory
    cases directory

/-- Inodes with links are allocated, and the entries of directories with links name
such inodes. -/
structure Fs.Live (fs : Fs) : Prop where
  closed : fs.Closed
  typed : ∀ i, 0 < (fs.node i).nlink → (fs.node i).type ≠ .free

theorem Fs.Live.drops (live : fs.Live) (drops : Drops fs fs') : fs'.Live := by
  refine ⟨live.closed.drops drops, fun i linked => ?_⟩
  cases drops i with
  | inl same =>
    rw [same.nlink] at linked
    rw [same.type]
    exact live.typed i linked
  | inr freed =>
    rw [freed.2.2] at linked
    exact absurd linked (by decide)

section

variable (skipped : skipelem path = some (name, rest))
include skipped

theorem skipelem_some :
    path.dropWhile (· == slash) ≠ [] ∧
      name = ((path.dropWhile (· == slash)).takeWhile (· != slash)).take dirsiz ∧
      rest = ((path.dropWhile (· == slash)).dropWhile (· != slash)).dropWhile (· == slash) := by
  simp only [skipelem] at skipped
  split at skipped
  · cases skipped
  rename_i ne
  obtain ⟨rfl, rfl⟩ := Prod.mk.inj (Option.some.inj skipped)
  exact ⟨fun empty => ne (by rw [empty]; rfl), rfl, rfl⟩

/-- Each step of the walk makes the path shorter. -/
theorem skipelem_shorter : rest.length < path.length := by
  obtain ⟨ne, _, rfl⟩ := skipelem_some skipped
  have whole := (List.dropWhile_suffix (l := path) (· == slash)).length_le
  generalize stripped : path.dropWhile (· == slash) = element at ne whole ⊢
  cases element with
  | nil => exact absurd rfl ne
  | cons first others =>
    have notSlash : (first != slash) = true := by
      have head := List.head?_dropWhile_not (· == slash) path
      rw [stripped] at head
      simpa using head
    have dropped : (first :: others).dropWhile (· != slash) = others.dropWhile (· != slash) :=
      List.dropWhile_cons_of_pos (p := (· != slash)) notSlash
    rw [dropped]
    have one := (List.dropWhile_suffix (l := others) (· != slash)).length_le
    have two := (List.dropWhile_suffix (l := others.dropWhile (· != slash)) (· == slash)).length_le
    rw [List.length_cons] at whole
    omega

/-- The bytes of an element and of the rest of a path are bytes of the path. -/
theorem skipelem_bytes :
    name.length ≤ dirsiz ∧ (∀ c, c ∈ name → c ∈ path) ∧ ∀ c, c ∈ rest → c ∈ path := by
  obtain ⟨_, rfl, rfl⟩ := skipelem_some skipped
  have strip : ∀ c, c ∈ path.dropWhile (· == slash) → c ∈ path :=
    fun c mem => (List.dropWhile_suffix _).mem mem
  refine ⟨List.length_take_le _ _, fun c mem => ?_, fun c mem => ?_⟩
  · exact strip c ((List.takeWhile_prefix _).mem (List.mem_of_mem_take mem))
  · exact strip c ((List.dropWhile_suffix _).mem ((List.dropWhile_suffix _).mem mem))

end

/-- What walking a path from inode `ip` ends with: no inode, or a reference to
one instead of that to `ip`.  If the parent is asked for, it comes with the last
element as a name. -/
def Walked (sb : SuperBlock) (base : Nat → Nat) (held : List Nat) (parent : Bool) (ip : Nat) (path : Path)
    (fs : Fs) (r : Option (Nat × Name)) (fs' : Fs) : Prop :=
  (r = none ∧ Moved sb base held held fs fs') ∨
  ∃ x name, r = some (x, name) ∧ Moved sb base held (x :: held) fs fs' ∧
    (fs.Closed → 0 < (fs.node ip).nlink → 0 < (fs'.node x).nlink) ∧
    (parent = true → (∀ c, c ∈ path → c ≠ 0) → Dirent.NameOk name)

/-- The walk goes on to an inode that a directory names. -/
theorem Fs.Closed.next {fs₁ fs₃ : Fs} {ip m : Nat} (closed : fs₁.Closed)
    (valid : (fs₁.itable ip).valid = true) (directory : (fs₁.itable ip).type = .dir)
    (linked : 0 < (fs₁.node ip).nlink)
    (inside : direntSize * m + direntSize ≤ (fs₁.itable ip).size)
    (used : (fs₁.dirent ip m).inum ≠ 0) (drops : Drops fs₁ fs₃) :
    0 < (fs₃.node (fs₁.dirent ip m).inum).nlink := by
  have node := node_of_valid valid
  have target := closed ip m (by rw [node]; exact directory) linked (by rwa [node]) used
  rwa [(drops.sameFile target).nlink]

theorem namexLoop_spec (parent : Bool) (fuel : Nat) :
    ∀ {fs : Fs} {ip : Nat} (path : Path) (name : Name), path.length < fuel → fs.Ok sb →
    Held base (ip :: held) fs → (untyped ∨ fs.Live ∧ 0 < (fs.node ip).nlink) →
    wp (namexLoop sb parent fuel ip path name) (Walked sb base held parent ip path fs)
      (Stops untyped unlinked) fs := by
  induction fuel with
  | zero => exact fun _ _ absurd => (Nat.not_lt_zero _ absurd).elim
  | succ _ ih =>
    intro fs ip path name _ ok holds live
    simp only [namexLoop]
    cases skipped : skipelem path with
    | none =>
      cases parent with
      | false =>
        refine .inr ⟨ip, name, rfl, .refl ok holds held, fun _ linked => linked, ?_⟩
        exact nofun
      | true =>
        simp only [if_true, wp_bind]
        apply wp_imp (iput_spec ok holds)
        exact fun _ _ moved => .inl ⟨rfl, moved.toMoved⟩
    | some element =>
      obtain ⟨name, rest⟩ := element
      obtain ⟨short, nameBytes, restBytes⟩ := skipelem_bytes skipped
      have shorter := skipelem_shorter skipped
      have typed : (fs.node ip).type = .free → untyped := fun free =>
        live.resolve_right fun both => both.1.typed ip both.2 free
      simp only [wp_bind]
      apply wp_imp (ilock_spec ok holds typed)
      rintro _ fs₁ ⟨locked, valid⟩
      simp only [wp_get]
      have tail : ∀ j, j ∈ held → j ∈ ip :: held := fun _ => .tail ip
      have weaken : Moved sb base held (ip :: held) fs fs₁ :=
        ⟨locked.ok, locked.held, fun j mem => locked.valid j (tail j mem), locked.files,
          locked.kept⟩
      split
      · apply wp_seq (iput_spec locked.ok locked.held)
        exact fun _ _ moved => .inl ⟨rfl, weaken.trans moved.toMoved fun _ mem => mem⟩
      split
      · refine .inr ⟨ip, name, rfl, weaken, fun _ linked => ?_, fun _ ne0 => ?_⟩
        · rwa [(locked.same ip).nlink]
        · exact ⟨short, fun c mem => ne0 c (nameBytes c mem)⟩
      apply wp_seq (dirlookup_spec locked.ok locked.held valid name)
      rintro r _ ⟨directory, ⟨rfl, rfl, _⟩ | ⟨x, m, rfl, inside, found, rfl, still⟩⟩
      · simp only [wp_bind]
        apply wp_imp (iput_spec locked.ok locked.held)
        exact fun _ _ moved => .inl ⟨rfl, weaken.trans moved.toMoved fun _ mem => mem⟩
      simp only [wp_bind]
      apply wp_imp (iput_spec still.ok (still.held.perm (List.Perm.swap _ _ _)))
      intro _ fs₃ dropped
      have walked : Moved sb base held ((fs₁.dirent ip m).inum :: held) fs fs₃ :=
        (weaken.trans still.toMoved tail).trans dropped.toMoved fun j =>
          List.mem_cons_of_mem _
      -- The directory has links, so the inode its entry names has some too.
      have next : fs.Closed → 0 < (fs.node ip).nlink →
          0 < (fs₃.node (fs₁.dirent ip m).inum).nlink := fun closed linked =>
        (closed.drops weaken.files).next valid directory
          (by rwa [(locked.same ip).nlink]) inside found.1
          (still.files.trans dropped.files)
      have live₃ : untyped ∨
          fs₃.Live ∧ 0 < (fs₃.node (fs₁.dirent ip m).inum).nlink := live.imp_right
        fun both => ⟨both.1.drops walked.files, next both.1.closed both.2⟩
      apply wp_imp (ih rest name (by omega) dropped.ok dropped.held live₃)
      rintro r _ (⟨rfl, moved⟩ | ⟨y, last, rfl, moved, linked, named⟩)
      · exact .inl ⟨rfl, walked.trans moved fun _ mem => mem⟩
      refine .inr ⟨y, last, rfl, walked.trans moved fun _ mem => mem,
        fun closed linkedIp => ?_, fun wanted ne0 => ?_⟩
      · exact linked (closed.drops walked.files) (next closed linkedIp)
      · exact named wanted fun c mem => ne0 c (restBytes c mem)

/-- The inode at which a path starts for a process with current directory `cwd`. -/
def pathStart (cwd : Nat) (path : Path) : Nat := if path.head? = some slash then rootino else cwd

theorem namex_spec (ok : fs.Ok sb) (holds : Held base held fs) (cwd : Nat) (path : Path)
    (parent : Bool) (live : untyped ∨ fs.Live ∧ 0 < (fs.node (pathStart cwd path)).nlink) :
    wp (namex sb cwd path parent) (Walked sb base held parent (pathStart cwd path) path fs)
      (Stops untyped unlinked) fs := by
  -- A reference to the start is taken first, and no file changes by that.
  have walk : ∀ {fs₁ : Fs} {ip : Nat}, (untyped ∨ fs.Live ∧ 0 < (fs.node ip).nlink) →
      Still sb base held (ip :: held) fs fs₁ →
      wp (namexLoop sb parent (path.length + 1) ip path [])
        (Walked sb base held parent ip path fs) (Stops untyped unlinked) fs₁ := by
    intro fs₁ ip live still
    have live₁ : untyped ∨ fs₁.Live ∧ 0 < (fs₁.node ip).nlink := live.imp_right fun both =>
      ⟨both.1.drops still.files, by rw [(still.same ip).nlink]; exact both.2⟩
    apply wp_imp (namexLoop_spec parent _ path [] (Nat.lt_succ_self _) still.ok still.held live₁)
    rintro r _ (⟨rfl, moved⟩ | ⟨x, name, rfl, moved, linked, named⟩)
    · exact .inl ⟨rfl, still.toMoved.trans moved fun _ mem => mem⟩
    refine .inr ⟨x, name, rfl, still.toMoved.trans moved fun _ mem => mem,
      fun closed start => ?_, named⟩
    exact linked (closed.drops still.files) (by rwa [(still.same ip).nlink])
  unfold namex
  unfold pathStart at live ⊢
  split_ifs with absolute
  · rw [if_pos absolute] at live
    exact wp_seq (iget_spec ok holds) fun _ _ still => walk live still
  · rw [if_neg absolute] at live
    exact wp_seq (idup_spec ok holds) fun _ _ still => walk live still

/-- `namei` returns a reference to an inode, or nothing. -/
theorem namei_spec (ok : fs.Ok sb) (holds : Held base held fs) (cwd : Nat) (path : Path)
    (live : untyped ∨ fs.Live ∧ 0 < (fs.node (pathStart cwd path)).nlink) :
    wp (namei sb cwd path) (fun r fs' => (r = none ∧ Moved sb base held held fs fs') ∨
      ∃ x, r = some x ∧ Moved sb base held (x :: held) fs fs' ∧
        (fs.Closed → 0 < (fs.node (pathStart cwd path)).nlink → 0 < (fs'.node x).nlink))
      (Stops untyped unlinked) fs := by
  simp only [namei, wp_bind]
  apply wp_imp (namex_spec ok holds cwd path false live)
  rintro r _ (⟨rfl, moved⟩ | ⟨x, _, rfl, moved, linked, _⟩)
  · exact .inl ⟨rfl, moved⟩
  · exact .inr ⟨x, rfl, moved, linked⟩

/-! ### Paths with the same elements -/

/-- The non-empty strings between the slashes of a path, cut to `DIRSIZ` bytes. -/
def pathElements (path : Path) : List Name :=
  ((path.splitOn slash).filter (· ≠ [])).map (List.take dirsiz)

theorem pathElements_slash (rest : Path) : pathElements (slash :: rest) = pathElements rest := by
  rw [pathElements, List.splitOn_cons_eq_if_modifyHead, if_pos (beq_self_eq_true slash)]
  rfl

theorem pathElements_strip (path : Path) :
    pathElements (path.dropWhile (· == slash)) = pathElements path := by
  induction path with
  | nil => rfl
  | cons c rest ih =>
    rw [List.dropWhile_cons]
    split_ifs with same
    · rw [ih, beq_iff_eq.mp same, pathElements_slash]
    · rfl

/-- The first element ends at the next slash. -/
theorem pathElements_split (ne : path.dropWhile (· == slash) ≠ []) :
    pathElements path = ((path.dropWhile (· == slash)).takeWhile (· != slash)).take dirsiz ::
      pathElements ((path.dropWhile (· == slash)).dropWhile (· != slash)) := by
  have first := List.head?_dropWhile_not (· == slash) path
  rw [← pathElements_strip]
  generalize path.dropWhile (· == slash) = path at ne first ⊢
  have inside : slash ∉ path.takeWhile (· != slash) := fun mem => by
    simpa using List.mem_takeWhile_imp mem
  have some : path.takeWhile (· != slash) ≠ [] := by
    cases path with
    | nil => exact absurd rfl ne
    | cons c _ => simpa using first
  have next := List.head?_dropWhile_not (· != slash) path
  nth_rw 1 [← List.takeWhile_append_dropWhile (p := (· != slash)) (l := path)]
  cases rest : path.dropWhile (· != slash) with
  | nil =>
    rw [List.append_nil, pathElements, List.splitOn_eq_singleton inside]
    simp [some, pathElements]
  | cons c more =>
    obtain rfl : c = slash := by simpa [rest] using next
    rw [pathElements_slash, pathElements, List.splitOn_append_cons_self_of_not_mem inside]
    simp [some, pathElements]

/-- `skipelem` takes the first element off a path, and what it leaves is empty if there is no
other. -/
theorem skipelem_elements (path : Path) :
    (skipelem path = none ∧ pathElements path = []) ∨
    ∃ name rest, skipelem path = some (name, rest) ∧ pathElements path = name :: pathElements rest ∧
      (rest.isEmpty = true ↔ pathElements rest = []) := by
  cases skipped : skipelem path with
  | none =>
    refine .inl ⟨rfl, ?_⟩
    simp only [skipelem] at skipped
    split_ifs at skipped with empty
    rw [← pathElements_strip, List.isEmpty_iff.mp empty]
    rfl
  | some element =>
    obtain ⟨name, rest⟩ := element
    obtain ⟨ne, rfl, rfl⟩ := skipelem_some skipped
    refine .inr ⟨_, _, rfl, ?_, fun empty => ?_, fun none => ?_⟩
    · rw [pathElements_strip, pathElements_split ne]
    · rw [List.isEmpty_iff.mp empty]
      rfl
    by_contra left
    rw [pathElements_strip, pathElements_split (by simpa using left)] at none
    cases none

variable {path' : Path} {parent : Bool} {ip fuel fuel' : Nat}

theorem namexLoop_congr (enough : path.length < fuel) (enough' : path'.length < fuel')
    (same : pathElements path = pathElements path') :
    namexLoop sb parent fuel ip path name = namexLoop sb parent fuel' ip path' name := by
  induction fuel generalizing fuel' path path' ip name with
  | zero => exact (Nat.not_lt_zero _ enough).elim
  | succ fuel ih =>
    obtain _ | fuel' := fuel'
    · exact (Nat.not_lt_zero _ enough').elim
    simp only [namexLoop]
    obtain ⟨skipped, elements⟩ | ⟨_, rest, skipped, elements, last⟩ := skipelem_elements path <;>
      obtain ⟨skipped', elements'⟩ | ⟨_, rest', skipped', elements', last'⟩ :=
        skipelem_elements path' <;>
      simp only [elements, elements', reduceCtorEq] at same <;> rw [skipped, skipped']
    obtain ⟨rfl, tails⟩ := List.cons.inj same
    have empty : rest.isEmpty = rest'.isEmpty := Bool.eq_iff_iff.mpr (by rw [last, last', tails])
    have shorter := skipelem_shorter skipped
    have shorter' := skipelem_shorter skipped'
    have next : ∀ ip name, namexLoop sb parent fuel ip rest name =
        namexLoop sb parent fuel' ip rest' name := fun ip name => ih (by omega) (by omega) tails
    simp only [empty, next]

/-- Slashes beyond the first and the bytes of an element beyond `DIRSIZ` change neither the
result of `namex` nor anything it does. -/
theorem namex_congr (absolute : path.head? = some slash ↔ path'.head? = some slash)
    (same : pathElements path = pathElements path') (sb : SuperBlock) (cwd : Nat) (parent : Bool) :
    namex sb cwd path parent = namex sb cwd path' parent := by
  unfold namex
  simp only [absolute]
  split_ifs <;> rw [namexLoop_congr (Nat.lt_succ_self _) (Nat.lt_succ_self _) same]

theorem namex_congr_slashes :
    namex ⟨60, 14, 8, by decide, by decide⟩ 1 [slash, 97, slash, slash, 98, slash] true =
      namex ⟨60, 14, 8, by decide, by decide⟩ 1 [slash, 97, slash, 98] true :=
  namex_congr (by decide) (by decide) _ _ _

end CustomXv6

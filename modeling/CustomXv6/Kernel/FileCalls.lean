/-
Module: CustomXv6.Kernel.FileCalls
Purpose: Exact runs of create, link and unlink; the blocks of files over all runs.
Trusted boundary: human-reviewed spec
Main exports: create_spec, link_spec, blocks_consistent, readi_after_writei
-/
import CustomXv6.Kernel.Lookup

namespace CustomXv6

open Hoare Fs Transition

/-! ### References across the parts of a call -/

variable {sb : SuperBlock} {base : Nat → Nat} {fs fs' fs₁ : Fs} {held : List Nat} {i dp ip : Nat}
  {untyped unlinked : Prop} {name : Name} {n : Int16}

theorem Fs.SameRefs.valid (same : SameRefs fs fs') (valid : (fs.itable i).valid = true) :
    (fs'.itable i).valid = true := (same i).2.trans valid

theorem Fs.Moved.weaken {keep keep' after : List Nat} (moved : Moved sb base keep after fs fs')
    (fewer : ∀ j, j ∈ keep' → j ∈ keep) : Moved sb base keep' after fs fs' :=
  ⟨moved.ok, moved.held, fun j mem => moved.valid j (fewer j mem), moved.files, moved.kept⟩

/-- A call has walked to the directory `dp` in which the last element of its path
is looked up, and has locked it. -/
structure AtParent (sb : SuperBlock) (base : Nat → Nat) (held : List Nat) (cwd : Nat) (path : Path)
    (fs : Fs) (dp : Nat) (name : Name) (fs' : Fs) : Prop where
  moved : Moved sb base held (dp :: held) fs fs'
  valid : (fs'.itable dp).valid = true
  linked : fs.Closed → 0 < (fs.node (pathStart cwd path)).nlink → 0 < (fs'.node dp).nlink
  named : (∀ c, c ∈ path → c ≠ 0) → Dirent.NameOk name

/-- `nameiparent` followed by `ilock` of the directory. -/
theorem parent_spec {α : Type} (ok : fs.Ok sb) (holds : Held base held fs) (cwd : Nat)
    (path : Path) {absent : FsM α} {found : Nat → Name → FsM α} {post : α → Fs → Prop}
    (live : untyped ∨ fs.Live ∧ 0 < (fs.node (pathStart cwd path)).nlink)
    (none : ∀ fs', Moved sb base held held fs fs' → wp absent post (Stops untyped unlinked) fs')
    (some : ∀ dp name fs', AtParent sb base held cwd path fs dp name fs' →
      wp (found dp name) post (Stops untyped unlinked) fs') :
    wp (do
      match ← nameiparent sb cwd path with
      | .none => absent
      | .some (dp, name) =>
        ilock sb dp
        found dp name) post (Stops untyped unlinked) fs := by
  simp only [nameiparent, wp_bind]
  apply wp_imp (namex_spec ok holds cwd path true live)
  rintro r fs' (⟨rfl, moved⟩ | ⟨x, name, rfl, moved, linked, named⟩)
  · exact none fs' moved
  have typed : (fs'.node x).type = .free → untyped := fun free => live.resolve_right fun both =>
    (both.1.drops moved.files).typed x (linked both.1.closed both.2) free
  simp only [wp_bind]
  apply wp_imp (ilock_spec moved.ok moved.held typed)
  rintro _ fs'' ⟨locked, valid⟩
  refine some x name fs'' ⟨?_, valid, fun closed start => ?_, named rfl⟩
  · exact moved.trans locked.toMoved fun j => .tail x
  · rw [(locked.same x).nlink]
    exact linked closed start

/-- An inode that a call has found by name in its parent directory is allocated. -/
theorem AtParent.typed {cwd : Nat} {path : Path} {m x : Nat} {fs₂ : Fs}
    (parent : AtParent sb base held cwd path fs dp name fs₁)
    (live : untyped ∨ fs.Live ∧ 0 < (fs.node (pathStart cwd path)).nlink)
    (directory : (fs₁.itable dp).type = .dir)
    (lt : direntSize * m + direntSize ≤ (fs₁.itable dp).size)
    (used : (fs₁.dirent dp m).inum ≠ 0) (names : (fs₁.dirent dp m).inum = x)
    (drops : Drops fs₁ fs₂) (free : (fs₂.node x).type = .free) : untyped := by
  subst names
  apply live.resolve_right
  rintro ⟨alive, start⟩
  have live₁ := alive.drops parent.moved.files
  apply (live₁.drops drops).typed _ _ free
  exact live₁.closed.next parent.valid directory (parent.linked alive.closed start) lt used
    drops

/-! ### Making a file -/

/-- The new inode gets its fields, with one link. -/
def Labelled (sb : SuperBlock) (i : Nat) (fs fs' : Fs) : Prop :=
  ∃ node : Dinode, node.type = (fs.node i).type ∧ node.size = (fs.node i).size ∧
    node.nlink = 1 ∧ Relabels sb i node fs fs'

/-- What comes between the new inode and a `dirlink` that fails: the entries `.`
and `..` of a new directory, as far as `create` got. -/
inductive DirlinkFails (sb : SuperBlock) (base : Nat → Nat) (held : List Nat) (type : InodeType) (i dp : Nat)
    (fs : Fs) : Fs → Prop where
  | first {fs' : Fs} (failed : Moved sb base held held fs fs') : DirlinkFails sb base held type i dp fs fs'
  | second {fs₁ fs' : Fs} {m : Nat} (directory : type = .dir)
      (dotted : Linked sb i dot i m fs fs₁) (failed : Moved sb base held held fs₁ fs') :
      DirlinkFails sb base held type i dp fs fs'
  | third {fs₁ fs₂ fs' : Fs} {m m' : Nat} (directory : type = .dir)
      (dotted : Linked sb i dot i m fs fs₁) (doubled : Linked sb i dotdot dp m' fs₁ fs₂)
      (failed : Moved sb base held held fs₂ fs') : DirlinkFails sb base held type i dp fs fs'

/-- The entries that `create` makes when every `dirlink` succeeds, and the link
that `..` is to the parent. -/
inductive DirlinksDone (sb : SuperBlock) (type : InodeType) (i dp : Nat) (name : Name)
    (fs : Fs) : Fs → Prop where
  | plain {fs' : Fs} {m : Nat} (notDirectory : type ≠ .dir)
      (linked : Linked sb dp name i m fs fs') : DirlinksDone sb type i dp name fs fs'
  | directory {fs₁ fs₂ fs₃ fs' : Fs} {m m' m'' : Nat} (directory : type = .dir)
      (dotted : Linked sb i dot i m fs fs₁) (doubled : Linked sb i dotdot dp m' fs₁ fs₂)
      (linked : Linked sb dp name i m'' fs₂ fs₃)
      (counted : Relabels sb dp { fs₃.node dp with nlink := (fs₃.node dp).nlink + 1 } fs₃ fs') :
      DirlinksDone sb type i dp name fs fs'

/-- What `create` does.  In `fs₁` the parent is locked, in `fs₂` the new inode has
been found, in `fs₃` it has its fields.  Where it fails the new inode has lost its
link in `fs₅`, and is let go of to get to `fs₆`. -/
inductive CreateRun (sb : SuperBlock) (base : Nat → Nat) (held : List Nat) (cwd : Nat) (path : Path)
    (type : InodeType) (fs : Fs) : Option Nat → Fs → Prop where
  | refused {fs' : Fs} (moved : Moved sb base held held fs fs') :
      CreateRun sb base held cwd path type fs none fs'
  | existing {fs' : Fs} {ip : Nat} (moved : Moved sb base held (ip :: held) fs fs')
      (valid : (fs'.itable ip).valid = true) :
      CreateRun sb base held cwd path type fs (some ip) fs'
  | failed {fs₁ fs₂ fs₃ fs₄ fs₅ fs₆ fs' : Fs} {dp ip : Nat} {name : Name}
      (parent : AtParent sb base held cwd path fs dp name fs₁)
      (allocated : Allocated sb base type (dp :: held) ip fs₁ fs₂) (labelled : Labelled sb ip fs₂ fs₃)
      (failed : DirlinkFails sb base (ip :: dp :: held) type ip dp fs₃ fs₄)
      (unlinked : Relabels sb ip { fs₄.node ip with nlink := 0 } fs₄ fs₅)
      (valid : (fs₅.itable ip).valid = true) (letGo : Dropped sb base (dp :: held) ip fs₅ fs₆)
      (moved : Moved sb base held held fs₆ fs') : CreateRun sb base held cwd path type fs none fs'
  | made {fs₁ fs₂ fs₃ fs₄ fs' : Fs} {dp ip : Nat} {name : Name}
      (parent : AtParent sb base held cwd path fs dp name fs₁)
      (allocated : Allocated sb base type (dp :: held) ip fs₁ fs₂) (labelled : Labelled sb ip fs₂ fs₃)
      (done : DirlinksDone sb type ip dp name fs₃ fs₄)
      (moved : Moved sb base (ip :: held) (ip :: held) fs₄ fs')
      (valid : (fs'.itable ip).valid = true) : CreateRun sb base held cwd path type fs (some ip) fs'

variable {type : InodeType}

theorem createFail_spec (ok : fs.Ok sb) (holds : Held base (ip :: dp :: held) fs)
    (valid : (fs.itable ip).valid = true) :
    wp (createFail dp ip) (fun r fs' => r = none ∧
      ∃ fs₁ fs₂, Relabels sb ip { fs.node ip with nlink := 0 } fs fs₁ ∧
        (fs₁.itable ip).valid = true ∧ Dropped sb base (dp :: held) ip fs₁ fs₂ ∧
        Moved sb base held held fs₂ fs') (Stops untyped unlinked) fs := by
  simp only [createFail, wp_bind]
  apply wp_imp (setNlink_spec ok valid 0)
  intro _ fs₁ unlinked
  apply wp_imp (iput_spec unlinked.ok (unlinked.refs.held holds))
  intro _ fs₂ first
  apply wp_imp (iput_spec first.ok first.held)
  intro _ _ second
  exact ⟨rfl, fs₁, fs₂, unlinked, unlinked.refs.valid valid, first, second.toMoved⟩

/-- Reading the new inode into memory changes nothing about it. -/
theorem Allocated.locked {fs₂ fs₃ : Fs} {keep : List Nat}
    (typed : Allocated sb base type keep ip fs fs₂)
    (still : Still sb base (ip :: keep) (ip :: keep) fs₂ fs₃) : Allocated sb base type keep ip fs fs₃ where
  number := typed.number
  wasFree := typed.wasFree
  ok := still.ok
  held := still.held
  valid j mem valid := still.valid j (.tail ip mem) (typed.valid j mem valid)
  others j other := (typed.others j other).trans (still.same j)
  type := (still.same ip).type.trans typed.type
  nlink := (still.same ip).nlink.trans typed.nlink
  size := (still.same ip).size.trans typed.size

/-- The two ways in which `create` ends once the new inode has its fields. -/
def CreateEnd (sb : SuperBlock) (base : Nat → Nat) (held : List Nat) (type : InodeType) (dp ip : Nat) (name : Name)
    (fs : Fs) (r : Option Nat) (fs' : Fs) : Prop :=
  (r = none ∧ ∃ fs₁ fs₂ fs₃, DirlinkFails sb base (ip :: dp :: held) type ip dp fs fs₁ ∧
    Relabels sb ip { fs₁.node ip with nlink := 0 } fs₁ fs₂ ∧ (fs₂.itable ip).valid = true ∧
    Dropped sb base (dp :: held) ip fs₂ fs₃ ∧ Moved sb base held held fs₃ fs') ∨
  (r = some ip ∧ ∃ fs₁, DirlinksDone sb type ip dp name fs fs₁ ∧
    Moved sb base (ip :: held) (ip :: held) fs₁ fs' ∧ (fs'.itable ip).valid = true)

/-- A `dirlink` of `create` that fails. -/
theorem createFail_end (failed : DirlinkFails sb base (ip :: dp :: held) type ip dp fs fs₁)
    (moved : fs₁.Ok sb) (holds : Held base (ip :: dp :: held) fs₁)
    (valid : (fs₁.itable ip).valid = true) :
    wp (createFail dp ip) (CreateEnd sb base held type dp ip name fs) (Stops untyped unlinked) fs₁ := by
  apply wp_imp (createFail_spec moved holds valid)
  rintro r _ ⟨rfl, fs₂, fs₃, unlinked, valid₂, letGo, moved⟩
  exact .inl ⟨rfl, fs₁, fs₂, fs₃, failed, unlinked, valid₂, letGo, moved⟩

/-- The end of `create` after the last `dirlink`. -/
theorem create_put (done : DirlinksDone sb type ip dp name fs fs₁) (ok : fs₁.Ok sb)
    (holds : Held base (ip :: dp :: held) fs₁) (valid : (fs₁.itable ip).valid = true) :
    wp (do iput dp; return some ip) (CreateEnd sb base held type dp ip name fs) (Stops untyped unlinked) fs₁ := by
  have swapped : Held base (dp :: ip :: held) fs₁ := holds.perm (List.Perm.swap dp ip held)
  simp only [wp_bind]
  apply wp_imp (iput_spec ok swapped)
  intro _ _ dropped
  refine .inr ⟨rfl, fs₁, done, dropped.toMoved, ?_⟩
  exact dropped.valid ip (.head _) valid

/-- `create` from the new inode on. -/
theorem createIn_spec (ok : fs.Ok sb) (holds : Held base (ip :: dp :: held) fs)
    (typed : (fs.node ip).type = .free → untyped) (validDp : (fs.itable dp).valid = true) (name : Name) (major minor : Int16) :
    wp (createIn sb dp name type major minor ip) (fun r fs' =>
      ∃ fs₁ fs₂, Still sb base (ip :: dp :: held) (ip :: dp :: held) fs fs₁ ∧ Labelled sb ip fs₁ fs₂ ∧
        CreateEnd sb base held type dp ip name fs₂ r fs') (Stops untyped unlinked) fs := by
  simp only [createIn, wp_bind]
  apply wp_imp (ilock_spec ok holds typed)
  rintro _ fs₁ ⟨still, valid₁⟩
  simp only [wp_modify, wp_iupdate]
  have relabels := still.ok.relabels valid₁
    { fs₁.itable ip with major := major, minor := minor, nlink := 1 } rfl valid₁ rfl rfl rfl
  generalize fs₁.store ip _ = fs₂ at relabels ⊢
  have labelled : Labelled sb ip fs₁ fs₂ := by
    refine ⟨_, ?_, ?_, rfl, relabels⟩
    · rw [node_of_valid valid₁]
    · rw [node_of_valid valid₁]
  have holds₂ := relabels.refs.held still.held
  have valid₂ := relabels.refs.valid valid₁
  have validDp₂ : (fs₂.itable dp).valid = true := relabels.refs.valid
    (still.valid dp (.tail ip (.head _)) validDp)
  suffices rest : wp _ (CreateEnd sb base held type dp ip name fs₂) (Stops untyped unlinked) fs₂ from
    wp_imp rest fun r fs' ended => ⟨fs₁, fs₂, still, labelled, ended⟩
  have both : ∀ j, j = ip ∨ j = dp → j ∈ ip :: dp :: held := by
    rintro j (rfl | rfl)
    · exact .head _
    · exact .tail ip (.head _)
  split_ifs with directory
  · apply wp_seq (dirlink_spec relabels.ok holds₂ valid₂ dot ip)
    rintro r fs₃ (⟨rfl, m, dotted⟩ | ⟨rfl, moved⟩)
    · have holds₃ := dotted.put.refs.held holds₂
      have valid₃ := dotted.put.refs.valid valid₂
      have validDp₃ := dotted.put.refs.valid validDp₂
      simp only [Bool.not_true, Bool.false_eq_true, if_false, wp_bind]
      apply wp_imp (dirlink_spec dotted.put.ok holds₃ valid₃ dotdot dp)
      rintro r _ (⟨rfl, _, doubled⟩ | ⟨rfl, moved⟩)
      · have holds₄ := doubled.put.refs.held holds₃
        have valid₄ := doubled.put.refs.valid valid₃
        have validDp₄ := doubled.put.refs.valid validDp₃
        simp only [Bool.not_true, Bool.false_eq_true, if_false, wp_bind]
        apply wp_imp (dirlink_spec doubled.put.ok holds₄ validDp₄ name ip)
        rintro r fs₅ (⟨rfl, _, linked⟩ | ⟨rfl, moved⟩)
        · have validDp₅ := linked.put.refs.valid validDp₄
          simp only [Bool.not_true, Bool.false_eq_true, if_false, wp_bind, wp_get]
          apply wp_imp (setNlink_spec linked.put.ok validDp₅ _)
          intro _ fs₆ counted
          rw [show (fs₅.itable dp).nlink = (fs₅.node dp).nlink by rw [node_of_valid validDp₅]]
            at counted
          have done : DirlinksDone sb type ip dp name fs₂ fs₆ :=
            .directory directory dotted doubled linked counted
          rw [← wp_bind]
          exact create_put done counted.ok (counted.refs.held (linked.put.refs.held holds₄))
            (counted.refs.valid (linked.put.refs.valid valid₄))
        · simp only [Bool.not_false, if_true]
          exact createFail_end (.third directory dotted doubled moved) moved.ok moved.held
            (moved.valid ip (both ip (.inl rfl)) valid₄)
      · simp only [Bool.not_false, if_true]
        exact createFail_end (.second directory dotted moved) moved.ok moved.held
          (moved.valid ip (both ip (.inl rfl)) valid₃)
    · simp only [Bool.not_false, if_true]
      exact createFail_end (.first moved) moved.ok moved.held
        (moved.valid ip (both ip (.inl rfl)) valid₂)
  apply wp_seq (dirlink_spec relabels.ok holds₂ validDp₂ name ip)
  rintro r _ (⟨rfl, m, linked⟩ | ⟨rfl, moved⟩)
  · simp only [Bool.not_true, Bool.false_eq_true, if_false]
    exact create_put (.plain directory linked) linked.put.ok (linked.put.refs.held holds₂)
      (linked.put.refs.valid valid₂)
  · simp only [Bool.not_false, if_true]
    exact createFail_end (.first moved) moved.ok moved.held
      (moved.valid ip (both ip (.inl rfl)) valid₂)

/-- `create` on a file system between operations. -/
theorem create_spec (ok : fs.Ok sb) (holds : Held base held fs) (cwd : Nat) (path : Path)
    (typed : type = .free → untyped) (major minor : Int16)
    (live : untyped ∨ fs.Live ∧ 0 < (fs.node (pathStart cwd path)).nlink) :
    wp (create sb cwd path type major minor) (CreateRun sb base held cwd path type fs)
      (Stops untyped unlinked) fs := by
  unfold create
  apply parent_spec ok holds cwd path live
  · exact fun fs' moved => .refused moved
  intro dp name _ parent
  have moved := parent.moved
  apply wp_seq (dirlookup_spec moved.ok moved.held parent.valid name)
  rintro r fs₂ ⟨directory, ⟨rfl, rfl, _⟩ | ⟨x, m, rfl, lt, found, names, still⟩⟩
  · simp only [wp_bind]
    apply wp_imp (ialloc_spec moved.ok moved.held type)
    rintro r _ (⟨rfl, rfl⟩ | ⟨_, rfl, allocated⟩)
    · simp only [wp_bind]
      apply wp_imp (iput_spec moved.ok moved.held)
      exact fun _ fs' dropped => .refused (moved.trans dropped.toMoved fun _ mem => mem)
    have validDp := allocated.valid dp (.head _) parent.valid
    apply wp_imp (createIn_spec allocated.ok allocated.held
      (fun free => typed (allocated.type.symm.trans free)) validDp name major minor)
    rintro r fs' ⟨fs₃, fs₄, still, labelled, ended⟩
    have allocated := allocated.locked still
    cases ended with
    | inl failed =>
      obtain ⟨rfl, _, _, _, failed, unlinked, valid, letGo, moved⟩ := failed
      exact .failed parent allocated labelled failed unlinked valid letGo moved
    | inr made =>
      obtain ⟨rfl, _, done, moved, valid⟩ := made
      exact .made parent allocated labelled done moved valid
  simp only [wp_bind]
  have swapped : Held base (dp :: x :: held) fs₂ := still.held.perm (List.Perm.swap dp x held)
  apply wp_imp (iput_spec still.ok swapped)
  intro _ _ dropped
  apply wp_imp (ilock_spec dropped.ok dropped.held
    (parent.typed live directory lt found.1 names (still.files.trans dropped.files)))
  rintro _ fs₄ ⟨locked, valid⟩
  have found : Moved sb base held (x :: held) fs fs₄ :=
    ((moved.trans still.toMoved fun _ => .tail dp).trans dropped.toMoved
      fun _ => .tail x).trans locked.toMoved fun _ => .tail x
  simp only [wp_get]
  split
  · exact .existing found valid
  · apply wp_seq (iput_spec locked.ok locked.held)
    exact fun _ fs' dropped => .refused (found.trans dropped.toMoved fun _ mem => mem)

/-! ### Linking -/

/-- What `sys_link` does.  In `fs₁` the file is locked, in `fs₂` its link count is
one higher, in `fs₃` the walk to the new name is over. -/
inductive LinkRun (sb : SuperBlock) (base : Nat → Nat) (held : List Nat) (cwd : Nat) (new : Path) (fs : Fs) :
    Fs → Prop where
  | refused {fs' : Fs} (moved : Moved sb base held held fs fs') : LinkRun sb base held cwd new fs fs'
  | failed {fs₁ fs₂ fs₃ fs₄ fs' : Fs} {ip : Nat} (found : Moved sb base held (ip :: held) fs fs₁)
      (valid : (fs₁.itable ip).valid = true) (notDirectory : (fs₁.node ip).type ≠ .dir)
      (counted : Relabels sb ip { fs₁.node ip with nlink := (fs₁.node ip).nlink + 1 } fs₁ fs₂)
      (failed : Moved sb base (ip :: held) (ip :: held) fs₂ fs₃)
      (uncounted : Relabels sb ip { fs₃.node ip with nlink := (fs₃.node ip).nlink - 1 } fs₃ fs₄)
      (moved : Moved sb base held held fs₄ fs') : LinkRun sb base held cwd new fs fs'
  | made {fs₁ fs₂ fs₃ fs₄ fs' : Fs} {ip dp m : Nat} {name : Name}
      (found : Moved sb base held (ip :: held) fs fs₁) (valid : (fs₁.itable ip).valid = true)
      (notDirectory : (fs₁.node ip).type ≠ .dir)
      (counted : Relabels sb ip { fs₁.node ip with nlink := (fs₁.node ip).nlink + 1 } fs₁ fs₂)
      (parent : AtParent sb base (ip :: held) cwd new fs₂ dp name fs₃)
      (linked : Linked sb dp name ip m fs₃ fs₄)
      (moved : Moved sb base held held fs₄ fs') : LinkRun sb base held cwd new fs fs'

/-- A link count below the largest `short` does not wrap around. -/
theorem nlink_add_one (few : n < 32767) : (n + 1).toInt = n.toInt + 1 := by
  rw [Int16.lt_iff_toInt_lt] at few
  change _ < (32767 : Int) at few
  have low := n.le_toInt
  rw [Int16.toInt_add]
  change (n.toInt + 1).bmod 65536 = _
  exact Int.bmod_eq_of_le (by omega) (by omega)

theorem nlink_pos : 0 < n ↔ 0 < n.toInt := Int16.lt_iff_toInt_lt

/-- The bound on the links of every inode holds after some have been dropped. -/
theorem few_of_drops (few : ∀ i, (fs.node i).nlink < 32767) (drops : Drops fs fs')
    (i : Nat) : (fs'.node i).nlink < 32767 := by
  cases drops i with
  | inl same => exact same.nlink ▸ few i
  | inr freed =>
    rw [freed.2.2]
    decide

theorem linkBad_spec (ok : fs.Ok sb) (holds : Held base (ip :: held) fs)
    (valid : (fs.itable ip).valid = true) :
    wp (linkBad sb ip) (fun _ fs' => ∃ fs₁,
      Relabels sb ip { fs.node ip with nlink := (fs.node ip).nlink - 1 } fs fs₁ ∧
        Moved sb base held held fs₁ fs') (Stops untyped unlinked) fs := by
  have lock : wp (ilock sb ip) (fun _ fs' => fs' = fs) (Stops untyped unlinked) fs := by
    have counted := holds.ref_pos
    simp only [ilock, wp_bind, wp_get]
    rw [if_neg (by omega), if_pos valid]
    rfl
  simp only [linkBad, wp_bind]
  apply wp_imp lock
  rintro _ fs' rfl
  simp only [wp_get]
  apply wp_imp (setNlink_spec ok valid _)
  intro _ fs₁ uncounted
  rw [show (fs'.itable ip).nlink = (fs'.node ip).nlink by rw [node_of_valid valid]] at uncounted
  apply wp_imp (iput_spec uncounted.ok (uncounted.refs.held holds))
  exact fun _ _ dropped => ⟨fs₁, uncounted, dropped.toMoved⟩

/-- A live file system stays live where the links to an inode change and whether it
has any does not. -/
theorem Fs.Live.relabels {node : Dinode} (live : fs.Live) (relabels : Relabels sb ip node fs fs')
    (type : node.type = (fs.node ip).type) (size : node.size = (fs.node ip).size)
    (links : 0 < node.nlink ↔ 0 < (fs.node ip).nlink) : fs'.Live := by
  have self := relabels.self
  have linked : ∀ j, 0 < (fs'.node j).nlink ↔ 0 < (fs.node j).nlink := by
    intro j
    by_cases same : j = ip
    · rw [same, self]
      exact links
    · rw [(relabels.others j same).nlink]
  have types : ∀ j, (fs'.node j).type = (fs.node j).type := by
    intro j
    by_cases same : j = ip
    · rw [same, self, type]
    · exact (relabels.others j same).type
  have sizes : ∀ j, (fs'.node j).size = (fs.node j).size := by
    intro j
    by_cases same : j = ip
    · rw [same, self, size]
    · exact (relabels.others j same).size
  have entries : ∀ d k, direntSize * k + direntSize ≤ (fs.node d).size →
      fs'.dirent d k = fs.dirent d k := by
    intro d k lt
    by_cases same : d = ip
    · subst same
      exact Dirent.ofBytes_congr fun b _ => relabels.byte _
    · exact (relabels.others d same).dirent lt
  constructor
  · intro d k directory linkedDir lt used
    rw [sizes] at lt
    rw [entries d k lt] at used ⊢
    rw [linked]
    exact live.closed d k (by rwa [types] at directory) ((linked d).mp linkedDir) lt used
  · intro j linkedNode
    rw [types]
    exact live.typed j ((linked j).mp linkedNode)

/-- `sys_link` on a file system between operations. -/
theorem link_spec (ok : fs.Ok sb) (holds : Held base held fs) (cwd : Nat) (old new : Path)
    (live : untyped ∨ fs.Live ∧ 0 < (fs.node (pathStart cwd old)).nlink ∧
      0 < (fs.node (pathStart cwd new)).nlink ∧ ∀ i, (fs.node i).nlink < 32767) :
    wp (link sb cwd old new) (fun _ fs' => LinkRun sb base held cwd new fs fs')
      (Stops untyped unlinked) fs := by
  simp only [link, wp_bind]
  apply wp_imp (namei_spec ok holds cwd old (live.imp_right fun both => ⟨both.1, both.2.1⟩))
  rintro r fs₀ (⟨rfl, moved⟩ | ⟨ip, rfl, moved, linked⟩)
  · exact .refused moved
  simp only [wp_bind]
  have typed : (fs₀.node ip).type = .free → untyped := fun free => live.resolve_right fun both =>
    (both.1.drops moved.files).typed ip (linked both.1.closed both.2.1) free
  apply wp_imp (ilock_spec moved.ok moved.held typed)
  rintro _ fs₁ ⟨locked, valid₁⟩
  have found : Moved sb base held (ip :: held) fs fs₁ :=
    moved.trans locked.toMoved fun _ => .tail ip
  have node := node_of_valid valid₁
  simp only [wp_get]
  split_ifs with notDirectory
  · apply wp_seq (iput_spec locked.ok locked.held)
    exact fun _ fs' dropped => .refused (found.trans dropped.toMoved fun _ mem => mem)
  rw [wp_bind, wp_get]
  apply wp_seq (setNlink_spec locked.ok valid₁ _)
  intro _ fs₂ counted
  rw [show (fs₁.itable ip).nlink = (fs₁.node ip).nlink by rw [node]] at counted
  have holds₂ := counted.refs.held locked.held
  have valid₂ := counted.refs.valid valid₁
  have notDirectory' : (fs₁.node ip).type ≠ .dir := by rwa [node]
  have liveNew : untyped ∨ fs₂.Live ∧ 0 < (fs₂.node (pathStart cwd new)).nlink := by
    apply live.imp_right
    rintro ⟨alive, linkedOld, linkedNew, few⟩
    have linkedIp := (locked.same ip).nlink ▸ linked alive.closed linkedOld
    have more : 0 < (fs₁.node ip).nlink + 1 := by
      rw [nlink_pos] at linkedIp ⊢
      rw [nlink_add_one (few_of_drops few found.files ip)]
      omega
    have live₁ := alive.drops found.files
    refine ⟨live₁.relabels counted rfl rfl (by simp only [more, linkedIp]), ?_⟩
    by_cases same : pathStart cwd new = ip
    · rw [same, counted.self]
      exact more
    · rw [(counted.others _ same).nlink]
      rwa [(found.files.sameFile linkedNew).nlink]
  -- The rest once the walk to the new name or the `dirlink` has failed.
  have bad : ∀ fs₃, Moved sb base (ip :: held) (ip :: held) fs₂ fs₃ →
      wp (linkBad sb ip) (fun _ fs' => LinkRun sb base held cwd new fs fs') (Stops untyped unlinked) fs₃ := by
    intro fs₃ failed
    apply wp_imp (linkBad_spec failed.ok failed.held (failed.valid ip (.head _) valid₂))
    rintro _ _ ⟨fs₄, uncounted, moved⟩
    exact .failed found valid₁ notDirectory' counted failed uncounted moved
  apply parent_spec counted.ok holds₂ cwd new liveNew
  · exact bad
  intro dp name _ parent
  apply wp_seq (dirlink_spec parent.moved.ok parent.moved.held parent.valid name ip)
  rintro r _ (⟨rfl, m, linked⟩ | ⟨rfl, failed⟩)
  · simp only [Bool.not_true, Bool.false_eq_true, if_false, wp_bind]
    apply wp_imp (iput_spec linked.put.ok (linked.put.refs.held parent.moved.held))
    intro _ fs₅ first
    apply wp_imp (iput_spec first.ok first.held)
    intro _ _ second
    refine .made found valid₁ notDirectory' counted parent linked ?_
    exact (first.toMoved.weaken fun _ => .tail ip).trans second.toMoved
      fun _ mem => mem
  simp only [Bool.not_false, if_true]
  apply wp_seq (iput_spec failed.ok failed.held)
  intro _ fs₅ dropped
  exact bad fs₅ ((parent.moved.trans failed fun _ => .tail dp).trans
    dropped.toMoved fun _ mem => mem)

/-! ### Unlinking -/

/-- The link that the `..` of a directory is to its parent goes with the directory. -/
inductive Discounted (sb : SuperBlock) (dp ip : Nat) (fs : Fs) : Fs → Prop where
  | plain (notDirectory : (fs.node ip).type ≠ .dir) : Discounted sb dp ip fs fs
  | directory {fs' : Fs} (directory : (fs.node ip).type = .dir)
      (uncounted : Relabels sb dp { fs.node dp with nlink := (fs.node dp).nlink - 1 } fs fs') :
      Discounted sb dp ip fs fs'

/-- What `sys_unlink` does once it has found the entry `m` of `dp`, which names
`ip`: the entry is cleared, the links are taken off, and both inodes are let go. -/
structure Removed (sb : SuperBlock) (base : Nat → Nat) (held : List Nat) (dp m ip : Nat)
    (fs fs₁ fs₂ fs₃ fs₄ fs' : Fs) : Prop where
  cleared : Put sb dp m {} fs fs₁
  discounted : Discounted sb dp ip fs₁ fs₂
  parent : Dropped sb base (ip :: held) dp fs₂ fs₃
  uncounted : Relabels sb ip { fs₃.node ip with nlink := (fs₃.node ip).nlink - 1 } fs₃ fs₄
  letGo : Dropped sb base held ip fs₄ fs'

/-- The entry `m` of the directory `dp` is the one `sys_unlink` finds for a name that
is neither `.` nor `..`. -/
structure FoundPlain (dp : Nat) (name : Name) (m : Nat) (fs : Fs) : Prop where
  directory : (fs.node dp).type = .dir
  notDot : namecmp name dot = false
  notDotdot : namecmp name dotdot = false
  lt : direntSize * m + direntSize ≤ (fs.node dp).size
  found : (fs.dirent dp m).Matches name

/-- What `sys_unlink` does.  In `fs₁` the parent is locked, in `fs₂` the file is
locked as well. -/
inductive UnlinkRun (sb : SuperBlock) (base : Nat → Nat) (held : List Nat) (cwd : Nat) (path : Path) (fs : Fs) :
    Fs → Prop where
  | refused {fs' : Fs} (moved : Moved sb base held held fs fs') : UnlinkRun sb base held cwd path fs fs'
  | removed {fs₁ fs₂ fs₃ fs₄ fs₅ fs₆ fs' : Fs} {dp ip m : Nat} {name : Name}
      (parent : AtParent sb base held cwd path fs dp name fs₁)
      (found : FoundPlain dp name m fs₁) (names : (fs₁.dirent dp m).inum = ip)
      (locked : Still sb base (dp :: held) (ip :: dp :: held) fs₁ fs₂)
      (linked : ¬ (fs₂.node ip).nlink < 1)
      (empty : (fs₂.node ip).type = .dir → ∀ k, 2 ≤ k → direntSize * k < (fs₂.node ip).size →
        (fs₂.dirent ip k).inum = 0)
      (removed : Removed sb base held dp m ip fs₂ fs₃ fs₄ fs₅ fs₆ fs') :
      UnlinkRun sb base held cwd path fs fs'

theorem unlinkEntry_spec (ok : fs.Ok sb) (holds : Held base (ip :: dp :: held) fs)
    (validDp : (fs.itable dp).valid = true) (validIp : (fs.itable ip).valid = true) (m : Nat) :
    wp (unlinkEntry sb dp (direntSize * m) ip) (fun _ fs' => ∃ fs₁ fs₂ fs₃ fs₄,
      Removed sb base held dp m ip fs fs₁ fs₂ fs₃ fs₄ fs') (Stops untyped unlinked) fs := by
  simp only [unlinkEntry, wp_bind]
  apply wp_imp (writeDirent_spec ok validDp m)
  rintro r fs₁ (⟨rfl, cleared⟩ | ⟨failed, _⟩)
  · simp only [ne_eq, not_true_eq_false, if_false, wp_bind, wp_get]
    have holds₁ := cleared.refs.held holds
    have validDp₁ := cleared.refs.valid validDp
    have validIp₁ := cleared.refs.valid validIp
    -- What follows the change of the parent's count, from the state it leaves.
    have rest : ∀ fs₂, Discounted sb dp ip fs₁ fs₂ → fs₂.Ok sb → SameRefs fs₁ fs₂ →
        wp (do
          iput dp
          setNlink ip (((← get).itable ip).nlink - 1)
          iput ip
          return (0 : Int)) (fun _ fs' => ∃ fs₁ fs₂ fs₃ fs₄,
            Removed sb base held dp m ip fs fs₁ fs₂ fs₃ fs₄ fs') (Stops untyped unlinked) fs₂ := by
      intro fs₂ discounted ok₂ refs
      have swapped : Held base (dp :: ip :: held) fs₂ :=
        (refs.held holds₁).perm (List.Perm.swap dp ip held)
      simp only [wp_bind]
      apply wp_imp (iput_spec ok₂ swapped)
      intro _ fs₃ parent
      have validIp₃ := parent.valid ip (.head _) (refs.valid validIp₁)
      simp only [wp_get]
      apply wp_imp (setNlink_spec parent.ok validIp₃ _)
      intro _ fs₄ uncounted
      rw [show (fs₃.itable ip).nlink = (fs₃.node ip).nlink by rw [node_of_valid validIp₃]]
        at uncounted
      apply wp_imp (iput_spec uncounted.ok (uncounted.refs.held parent.held))
      exact fun _ _ dropped => ⟨fs₁, fs₂, fs₃, fs₄, cleared, discounted, parent, uncounted, dropped⟩
    have node := node_of_valid validIp₁
    simp only [wp_bind] at rest
    split_ifs with directory
    · simp only [wp_bind, wp_get]
      apply wp_imp (setNlink_spec cleared.ok validDp₁ _)
      intro _ fs₂ uncounted
      rw [show (fs₁.itable dp).nlink = (fs₁.node dp).nlink by rw [node_of_valid validDp₁]]
        at uncounted
      exact rest fs₂ (.directory (by rwa [node]) uncounted) uncounted.ok uncounted.refs
    · simp only [wp_bind]
      exact rest fs₁ (.plain (by rwa [node])) cleared.ok fun _ => ⟨rfl, rfl⟩
  · rw [if_pos failed]
    trivial

/-- `sys_unlink` on a file system between operations. -/
theorem unlink_spec (ok : fs.Ok sb) (holds : Held base held fs) (cwd : Nat) (path : Path)
    (live : untyped ∨ fs.Live ∧ 0 < (fs.node (pathStart cwd path)).nlink)
    (counted : ∀ fs₁ dp name m, AtParent sb base held cwd path fs dp name fs₁ →
      FoundPlain dp name m fs₁ → (fs₁.node (fs₁.dirent dp m).inum).nlink < 1 → unlinked) :
    wp (unlink sb cwd path) (fun _ fs' => UnlinkRun sb base held cwd path fs fs')
      (Stops untyped unlinked) fs := by
  unfold unlink
  apply parent_spec ok holds cwd path live
  · exact fun fs' moved => .refused moved
  intro dp name fs₁ parent
  have moved := parent.moved
  have node := node_of_valid parent.valid
  have letGo : wp (do iput dp; return (-1 : Int))
      (fun _ fs' => UnlinkRun sb base held cwd path fs fs') (Stops untyped unlinked) fs₁ := by
    apply wp_seq (iput_spec moved.ok moved.held)
    exact fun _ fs' dropped => .refused (moved.trans dropped.toMoved fun _ mem => mem)
  split_ifs with plain
  · exact letGo
  rw [Bool.or_eq_true, not_or, Bool.not_eq_true, Bool.not_eq_true] at plain
  apply wp_seq (dirlookup_spec moved.ok moved.held parent.valid name)
  rintro r _ ⟨directory, ⟨rfl, rfl, _⟩ | ⟨ip, m, rfl, lt, found, names, still⟩⟩
  · exact letGo
  simp only [wp_bind]
  apply wp_imp (ilock_spec still.ok still.held
    (parent.typed live directory lt found.1 names still.files))
  rintro _ fs₃ ⟨locked, validIp⟩
  have both : Still sb base (dp :: held) (ip :: dp :: held) fs₁ fs₃ :=
    still.trans locked fun _ => .tail ip
  have validDp := both.valid dp (.head _) parent.valid
  have nodeIp := node_of_valid validIp
  have plainly : FoundPlain dp name m fs₁ := ⟨by rwa [node], plain.1, plain.2, by rwa [node], found⟩
  simp only [wp_get]
  split
  · rename_i few
    apply counted fs₁ dp name m parent plainly
    rwa [names, ← (both.same ip).nlink, nodeIp]
  rename_i linked
  -- The end, where the inode is no directory or an empty one.
  have remove : ((fs₃.node ip).type = .dir → ∀ k, 2 ≤ k →
      direntSize * k < (fs₃.node ip).size → (fs₃.dirent ip k).inum = 0) →
      wp (unlinkEntry sb dp (direntSize * m) ip)
        (fun _ fs' => UnlinkRun sb base held cwd path fs fs') (Stops untyped unlinked) fs₃ := by
    intro empty
    apply wp_imp (unlinkEntry_spec locked.ok locked.held validDp validIp m)
    rintro _ _ ⟨fs₄, fs₅, fs₆, _, removed⟩
    exact .removed parent plainly names both (by rwa [nodeIp]) empty removed
  simp only [wp_bind, wp_get]
  split
  · apply wp_seq (isdirempty_spec locked.ok validIp)
    rintro r _ ⟨rfl, empty⟩
    cases r with
    | true =>
      apply remove
      rw [nodeIp]
      exact fun _ => empty rfl
    | false =>
      simp only [Bool.not_false, if_true, wp_bind]
      apply wp_imp (iput_spec locked.ok locked.held)
      intro _ _ first
      apply wp_imp (iput_spec first.ok first.held)
      intro _ _ second
      exact .refused (((moved.trans both.toMoved fun _ => .tail dp).trans
        first.toMoved fun _ => .tail dp).trans second.toMoved
        fun _ mem => mem)
  · rename_i notDirectory
    apply remove
    rw [nodeIp]
    exact fun directory => absurd directory notDirectory

/-! ### Sequences of operations -/

/-- The operations on inodes, blocks and names.  The offset and the bytes of a
read or a write, and the places from which a copy fails, are the caller's. -/
inductive FsOp where
  | namei (cwd : Nat) (path : Path)
  | readi (i : Nat) (dst : Nat → Bool) (off n : Nat)
  | writei (i : Nat) (src : Nat → Option UInt8) (off n : Nat)
  | itrunc (i : Nat)
  | ialloc (type : InodeType)
  | create (cwd : Nat) (path : Path) (type : InodeType) (major minor : Int16)
  | link (cwd : Nat) (old new : Path)
  | unlink (cwd : Nat) (path : Path)
  | iput (i : Nat)

/-- The operation as a program; an inode is locked before it is read, written or
truncated. -/
def FsOp.run (sb : SuperBlock) : FsOp → FsM Unit
  | .namei cwd path => do let _ ← CustomXv6.namei sb cwd path
  | .readi i dst off n => do
    ilock sb i
    let _ ← CustomXv6.readi sb i dst off n
  | .writei i src off n => do
    ilock sb i
    let _ ← CustomXv6.writei sb i src off n
  | .itrunc i => do
    ilock sb i
    CustomXv6.itrunc i
  | .ialloc type => do let _ ← CustomXv6.ialloc sb type
  | .create cwd path type major minor => do
    let _ ← CustomXv6.create sb cwd path type major minor
  | .link cwd old new => do let _ ← CustomXv6.link sb cwd old new
  | .unlink cwd path => do let _ ← CustomXv6.unlink sb cwd path
  | .iput i => CustomXv6.iput i

/-- A reference that is dropped is one that somebody holds. -/
def FsOp.enabled (fs : Fs) : FsOp → Bool
  | .iput i => 0 < (fs.itable i).ref
  | _ => true

/-- One operation after another; a panic ends the sequence. -/
def FsOp.step (sb : SuperBlock) (fs : Fs) (op : FsOp) : Option Fs :=
  if op.enabled fs then
    match op.run sb fs with
    | .ok (_, fs') => some fs'
    | .error _ => none
  else none

/-! ### What every operation preserves -/

/-- The state between two operations: the free map and the inodes agree, and no
reference count is negative. -/
def Fs.Sound (sb : SuperBlock) (fs : Fs) : Prop := fs.Ok sb ∧ ∀ i, 0 ≤ (fs.itable i).ref

theorem Fs.Held.nonneg (holds : Held base held fs) (i : Nat) : 0 ≤ (fs.itable i).ref := by
  rw [holds i]
  exact Int.natCast_nonneg _

/-- References that are counted can be seen as those of the running operation. -/
theorem Fs.held_of_le (counted : ∀ i, (held.count i : Int) ≤ (fs.itable i).ref) :
    Held (fun i => (fs.itable i).ref.toNat - held.count i) held fs := by
  intro i
  have := counted i
  simp only
  omega

theorem Fs.Moved.sound {keep : List Nat} (moved : Moved sb base keep held fs fs') : fs'.Sound sb :=
  ⟨moved.ok, moved.held.nonneg⟩

variable {cwd : Nat} {path : Path}

theorem CreateRun.sound {r : Option Nat}
    (run : CreateRun sb base held cwd path type fs r fs') : fs'.Sound sb := by
  cases run with
  | refused moved => exact moved.sound
  | existing moved => exact moved.sound
  | failed _ _ _ _ _ _ _ moved => exact moved.sound
  | made _ _ _ _ moved => exact moved.sound

theorem LinkRun.sound {new : Path} (run : LinkRun sb base held cwd new fs fs') : fs'.Sound sb := by
  cases run with
  | refused moved => exact moved.sound
  | failed _ _ _ _ _ _ moved => exact moved.sound
  | made _ _ _ _ _ _ moved => exact moved.sound

theorem UnlinkRun.sound (run : UnlinkRun sb base held cwd path fs fs') : fs'.Sound sb := by
  cases run with
  | refused moved => exact moved.sound
  | removed _ _ _ _ _ _ removed => exact removed.letGo.toMoved.sound

/-- Every operation leaves the free map and the inodes in agreement and frees no block twice. -/
theorem FsOp.run_spec (sound : fs.Sound sb) (op : FsOp) (enabled : op.enabled fs = true) :
    wp (op.run sb) (fun _ fs' => fs'.Sound sb) (Stops True True) fs := by
  obtain ⟨ok, counted⟩ := sound
  have none : ∀ i, (([] : List Nat).count i : Int) ≤ (fs.itable i).ref := counted
  have holds := held_of_le none
  cases op with
  | namei cwd path =>
    simp only [FsOp.run, wp_bind]
    apply wp_imp (namei_spec ok holds cwd path (.inl trivial))
    rintro r fs' (⟨_, moved⟩ | ⟨x, _, moved, _⟩)
    · exact moved.sound
    · exact moved.sound
  | readi =>
    simp only [FsOp.run, wp_bind]
    apply wp_imp (ilock_spec ok holds fun _ => trivial)
    rintro _ fs₁ ⟨locked, valid⟩
    apply wp_imp (readi_spec locked.ok valid)
    rintro r fs' ⟨rfl, _⟩
    exact locked.toMoved.sound
  | writei =>
    simp only [FsOp.run, wp_bind]
    apply wp_imp (ilock_spec ok holds fun _ => trivial)
    rintro _ fs₁ ⟨locked, valid⟩
    apply wp_imp (writei_spec locked.ok valid)
    rintro r fs' (⟨_, rfl⟩ | ⟨_, _, _, _, wrote⟩)
    · exact locked.toMoved.sound
    · exact ⟨wrote.ok, (wrote.sameRefs.held locked.held).nonneg⟩
  | itrunc =>
    simp only [FsOp.run, wp_bind]
    apply wp_imp (ilock_spec ok holds fun _ => trivial)
    rintro _ _ ⟨locked, valid⟩
    apply wp_imp (itrunc_spec locked.ok.intact valid (locked.ok.allocated valid))
    exact fun _ fs' cut => ⟨cut.ok locked.ok valid, (cut.sameRefs.held locked.held).nonneg⟩
  | ialloc type =>
    simp only [FsOp.run, wp_bind]
    apply wp_imp (ialloc_spec ok holds type)
    rintro r _ (⟨_, rfl⟩ | ⟨i, _, typed⟩)
    · exact ⟨ok, counted⟩
    · exact ⟨typed.ok, typed.held.nonneg⟩
  | create cwd path _ major minor =>
    simp only [FsOp.run, wp_bind]
    apply wp_imp (create_spec ok holds cwd path (fun _ => trivial) major minor (.inl trivial))
    exact fun _ _ run => run.sound
  | link cwd old new =>
    simp only [FsOp.run, wp_bind]
    apply wp_imp (link_spec ok holds cwd old new (.inl trivial))
    exact fun _ _ run => run.sound
  | unlink cwd path =>
    simp only [FsOp.run, wp_bind]
    apply wp_imp (unlink_spec ok holds cwd path (.inl trivial) fun _ _ _ _ _ _ _ => trivial)
    exact fun _ _ run => run.sound
  | iput i =>
    have pos : 0 < (fs.itable i).ref := of_decide_eq_true enabled
    have held : ∀ j, ([i].count j : Int) ≤ (fs.itable j).ref := by
      intro j
      by_cases same : j = i
      · subst same
        rw [List.count_cons_self, List.count_nil]
        exact pos
      · rw [List.count_cons_of_ne (Ne.symm same)]
        exact counted j
    apply wp_imp (iput_spec ok (held_of_le held))
    exact fun _ _ dropped => dropped.toMoved.sound

theorem FsOp.step_sound {op : FsOp} (sound : fs.Sound sb)
    (stepped : FsOp.step sb fs op = some fs') : fs'.Sound sb := by
  unfold FsOp.step at stepped
  split at stepped
  · rename_i enabled
    split at stepped
    · rename_i run
      cases stepped
      have after := wp_run (op.run_spec sound enabled) run
      exact after
    · cases stepped
  · cases stepped

/-- From any image in which the free map and the inodes agree, with nothing of it in memory,
they agree after every sequence of operations, and no operation frees a block that is free. -/
theorem blocks_consistent {sb : SuperBlock} {start fs : Fs} (image : start.Consistent sb)
    (unread : ∀ i, start.itable i = {}) (run : Run (FsOp.step sb) (fun _ _ => True) start fs) :
    fs.Consistent sb ∧
      (∀ p q b, fs.owner p = some b → fs.owner q = some b → p = q) ∧
      (∀ b, sb.dataStart ≤ b → b < sb.size → fs.bitmap b = true → ∃ p, fs.owner p = some b) ∧
      ∀ op : FsOp, op.enabled fs = true → op.run sb fs ≠ .error .freeingFreeBlock := by
  have sound : fs.Sound sb := by
    apply run.invariant
    · refine ⟨⟨image, fun i valid => ?_, fun i valid => ?_⟩, fun i => ?_⟩
      · rw [unread i] at valid
        cases valid
      · rw [unread i] at valid
        cases valid
      · rw [unread i]
    · exact fun sound _ stepped => FsOp.step_sound sound stepped
  have ok := sound.1
  refine ⟨ok.intact, fun p q b => ok.intact.exact.single, fun b lower upper used => ?_,
    fun op enabled failed => ?_⟩
  · exact (ok.intact.usedOnce b lower upper used).exists
  · exact wp_error (op.run_spec sound enabled) failed

/-! ### An image -/

/-- A super block for a small disk: 46 blocks of metadata, as in the image that
mkfs makes, and 14 data blocks. -/
def smallDisk : SuperBlock where
  size := 60
  nblocks := 14
  ninodes := 8
  fits := by decide
  metadata := by decide

/-- The first block of the root directory with the entries `.` and `..`. -/
def rootBlock : Block := fun k =>
  if k < direntSize then ({ inum := rootino, name := dot } : Dirent).bytes k
  else if k < 2 * direntSize then
    ({ inum := rootino, name := dotdot } : Dirent).bytes (k - direntSize)
  else 0

/-- The image that mkfs makes of no files: the root directory in the first data block. -/
def emptyImage (sb : SuperBlock) : Fs where
  bitmap := fun b => b ≤ sb.dataStart
  data := fun b => if b = sb.dataStart then rootBlock else zeroBlock
  dinodes := fun i =>
    if i = rootino then
      { type := .dir, nlink := 1, size := bsize
        addrs := fun k => if k = 0 then sb.dataStart else 0 }
    else {}
  itable := fun _ => {}

theorem emptyImage_addr (sb : SuperBlock) (i k : Nat) :
    (emptyImage sb).addr i k = if i = rootino ∧ k = 0 then sb.dataStart else 0 := by
  unfold addr
  rw [node]
  by_cases root : i = rootino
  · subst root
    by_cases first : k = 0
    · subst first
      rfl
    · have later : ¬ (rootino = rootino ∧ k = 0) := fun both => first both.2
      simp [emptyImage, first, ndirect]
  · have other : ¬ (i = rootino ∧ k = 0) := fun both => root both.1
    rw [if_neg other]
    simp only [emptyImage, if_neg root]
    rfl

theorem emptyImage_owner (sb : SuperBlock) (p : Nat × Nat) (b : Nat) :
    (emptyImage sb).owner p = some b ↔ p = (rootino, 0) ∧ b = sb.dataStart := by
  have ne0 := sb.dataStart_pos
  rw [owner_eq_some, emptyImage_addr, Prod.ext_iff]
  split_ifs with root
  · constructor
    · exact fun same => ⟨root, same.1.symm⟩
    · exact fun same => ⟨same.2.symm, by omega⟩
  · constructor
    · exact fun same => absurd same.1.symm same.2
    · exact fun same => absurd same.1 root

/-- The image of no files is consistent on every disk with a data block. -/
theorem emptyImage_consistent (room : sb.dataStart < sb.size) : (emptyImage sb).Consistent sb := by
  constructor
  · intro b lower
    exact decide_eq_true (Nat.le_of_lt lower)
  · intro place b owned
    obtain ⟨_, rfl⟩ := (emptyImage_owner sb place b).mp owned
    exact ⟨le_rfl, room⟩
  · intro b lower _ used
    have first : b = sb.dataStart := Nat.le_antisymm (of_decide_eq_true used) lower
    refine ⟨(rootino, 0), (emptyImage_owner sb _ b).mpr ⟨rfl, first⟩, fun place owned => ?_⟩
    exact ((emptyImage_owner sb place b).mp owned).1
  · intro b _ _ unused place owned
    have later : ¬ b ≤ sb.dataStart := of_decide_eq_false unused
    exact later (Nat.le_of_eq ((emptyImage_owner sb place b).mp owned).2)
  intro i bn typed below
  rw [node] at typed below
  by_cases root : i = rootino
  · subst root
    have first : bn = 0 := by
      change bn * bsize < bsize at below
      exact Nat.lt_one_iff.mp (Nat.lt_of_mul_lt_mul_right (by omega : bn * bsize < 1 * bsize))
    subst first
    rw [(emptyImage_owner sb (rootino, blockPlace 0) sb.dataStart).mpr ⟨rfl, rfl⟩]
    exact Option.some_ne_none _
  · simp only [emptyImage, if_neg root] at typed
    exact absurd rfl typed

/-- A file with one block of data is made, linked under a second name and removed under the
first; one more block is used. -/
theorem blocks_consistent_after_writing :
    ∃ fs, (Run (FsOp.step smallDisk) (fun _ _ => True) (emptyImage smallDisk) fs ∧
        fs.bitmap (smallDisk.dataStart + 1) = true) ∧ fs.Consistent smallDisk := by
  have tested : ∃ fs, Run (FsOp.step smallDisk) (fun _ _ => True) (emptyImage smallDisk) fs ∧
      fs.bitmap (smallDisk.dataStart + 1) = true :=
    exists_run_of_runFrom _ _ [.create rootino [102] .file 0 0, .writei 2 (fun _ => some 7) 0 3,
        .link rootino [102] [103], .unlink rootino [102]] (by decide +kernel)
  obtain ⟨fs, run, used⟩ := tested
  exact ⟨fs, ⟨run, used⟩,
    (blocks_consistent (emptyImage_consistent (by decide)) (fun _ => rfl) run).1⟩

/-- After any sequence of operations, `readi` returns what `writei` has written, and from every
other file what it returned before. -/
theorem readi_after_writei {sb : SuperBlock} {start fs fs' : Fs} {i off n tot : Nat}
    {src : Nat → Option UInt8} (image : start.Consistent sb) (unread : ∀ i, start.itable i = {})
    (run : Run (FsOp.step sb) (fun _ _ => True) start fs)
    (valid : (fs.itable i).valid = true) (mapped : ∀ k, k < n → (src k).isSome = true)
    (written : writei sb i src off n fs = .ok ((tot : Int), fs')) :
    readi sb i (fun _ => true) off tot fs' =
      .ok (((tot : Int), (List.range tot).map fun k => (src k).getD 0), fs') ∧
    ∀ j, j ≠ i → (fs.itable j).valid = true → ∀ off m, ∃ r,
      readi sb j (fun _ => true) off m fs = .ok (r, fs) ∧
        readi sb j (fun _ => true) off m fs' = .ok (r, fs') := by
  have sound : fs.Sound sb := by
    apply run.invariant
    · refine ⟨⟨image, fun i valid => ?_, fun i valid => ?_⟩, fun i => ?_⟩ <;> simp_all
    · exact fun sound _ stepped => FsOp.step_sound sound stepped
  have small : off + n < 2 ^ 32 := by
    by_contra large
    have refused : writei sb i src off n fs = .ok (-1, fs) := by
      simp only [writei, Nat.le_of_not_lt large, or_true, if_true]
      rfl
    rw [refused] at written
    cases written
  have reads : ∀ {fs : Fs} {j off m}, fs.Ok sb → (fs.itable j).valid = true →
      readi sb j (fun _ => true) off m fs = .ok (if (fs.itable j).size < off ∨ 2 ^ 32 ≤ off + m
        then (0, []) else (((min m ((fs.itable j).size - off) : Nat) : Int),
          fs.bytesFrom j off (min m ((fs.itable j).size - off))), fs) := by
    intro fs j off m ok valid
    obtain ⟨_, _, ran, rfl, res⟩ := exists_of_wp (readi_spec ok valid)
    rw [ran, res fun _ => rfl]
  obtain ⟨never, -⟩ | ⟨_, same, bounded, start, wrote⟩ :=
    wp_run (show wp _ _ Never fs from writei_spec sound.1 valid) written
  · omega
  obtain rfl := Int.ofNat.inj same
  have valid' : (fs'.itable i).valid = true := by
    rw [wrote.self]
    exact valid
  have size : (fs'.itable i).size = max (fs.itable i).size (off + tot) := by rw [wrote.self]
  constructor
  · rw [reads wrote.ok valid', if_neg (by omega), Nat.min_eq_left (by omega)]
    congr 3
    apply List.map_congr_left
    intro k mem
    rw [(wrote.bytes mapped).1 _ (Nat.le_add_right off k)
      (Nat.add_lt_add_left (List.mem_range.mp mem) off), Nat.add_sub_cancel_left]
  intro j other validJ off m
  refine ⟨_, reads sound.1 validJ, ?_⟩
  have memory := wrote.memory j other
  rw [reads wrote.ok (memory ▸ validJ), memory]
  simp only [Fs.bytesFrom, byte_congr (fun k => wrote.elsewhere j k other)
    fun k b => wrote.data j k b other]

theorem readi_after_writei_two :
    ∃ fs, readi smallDisk 2 (fun _ => true) 0 2 fs = .ok ((2, [8, 8]), fs) := by
  have tested : ∃ fs, Run (FsOp.step smallDisk) (fun _ _ => True) (emptyImage smallDisk) fs ∧
      (fs.itable 2).valid = true ∧
      (writei smallDisk 2 (fun _ => some 8) 0 2 fs).toOption.map Prod.fst = some 2 :=
    exists_run_of_runFrom _ _ [.create rootino [102] .file 0 0] (by decide +kernel)
  obtain ⟨fs, run, valid, ret⟩ := tested
  cases wrote : writei smallDisk 2 (fun _ => some 8) 0 2 fs with
  | error => rw [wrote] at ret; cases ret
  | ok res =>
    obtain ⟨_, fs'⟩ := res
    rw [wrote] at ret
    cases ret
    exact ⟨fs', (readi_after_writei (emptyImage_consistent (by decide)) (fun _ => rfl) run valid
      (fun _ _ => rfl) wrote).1⟩

end CustomXv6

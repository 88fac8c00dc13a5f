/-
Module: CustomXv6.Kernel.PageConservation
Purpose: No page is lost or freed twice, and every address space has the right shape.
Trusted boundary: none
Main exports: MemSys.Inv, pages_conserved
-/
import CustomXv6.Kernel.MemorySystem
import Mathlib.Algebra.BigOperators.Pi
import Mathlib.Algebra.Order.BigOperators.Group.Finset

namespace CustomXv6

open PageHeap RadixTree Hoare Transition
open Function

namespace Pages

/-! ### Who owns a page -/

/-- The pages of pipes: those to which some file points. -/
def MemSys.pipePages (s : MemSys) (page : UInt64) : Nat :=
  if ∃ f, (s.files f).pipe = some page then 1 else 0

/-- How often a page is owned, by processes or as the buffer of a pipe. -/
def MemSys.owns (s : MemSys) : UInt64 → Nat := ∑ p, (s.procs p).owns s.vm + s.pipePages

/-- One of the two flags of a pipe. -/
def PipeEnds.isOpen (ends : PipeEnds) (writable : Bool) : Bool :=
  if writable then ends.writeopen else ends.readopen

/-- A pipe has at most one file for each end, and one exactly where the flag of
the end is set. -/
structure FilesOk (files : Fin nfile → MemFile) (pipes : UInt64 → PipeEnds) : Prop where
  unused : ∀ f, (files f).ref = 0 → (files f).pipe = none
  ends : ∀ f g page, (files f).pipe = some page → (files g).pipe = some page →
    (files f).writable = (files g).writable → f = g
  opened : ∀ f page, (files f).pipe = some page → (pipes page).isOpen (files f).writable = true
  held : ∀ f page writable, (files f).pipe = some page → (pipes page).isOpen writable = true →
    ∃ g, (files g).pipe = some page ∧ (files g).writable = writable

structure MemSys.Inv (pool kernel : List UInt64) (s : MemSys) : Prop where
  conserve : ∀ page, tally s.vm.freelist page + (s.owns page + tally kernel page) = tally pool page
  procs : ∀ p, (s.procs p).Ok s.vm
  files : FilesOk s.files s.pipes

/-- Distinct pages that `kfree` accepts. -/
structure Pool (L : Layout) (pool : List UInt64) : Prop where
  nodup : pool.Nodup
  good : ∀ page ∈ pool, InPool L page

variable {L : Layout} {pool kernel : List UInt64} {start s s' : MemSys} {p : ProcId} {vm vm' : Vm}
  {q : MemProc} {fail : MemPanic → Prop} {α : Type} {n : Nat} {call : MemCall}

theorem MemSys.Inv.separate (inv : s.Inv pool kernel) (isPool : Pool L pool) :
    L.Owns s.vm (s.owns + tally kernel) := by
  constructor
  · intro page
    have all := inv.conserve page
    have once := List.nodup_iff_count_le_one.mp isPool.nodup page
    rw [Pi.add_apply, all]
    exact once
  · intro page here
    rw [Pi.add_apply, inv.conserve page] at here
    exact isPool.good page (tally_pos.mp here)

/-- What the processes other than `p` own. -/
def MemSys.others (s : MemSys) (p : ProcId) (vm : Vm) : UInt64 → Nat :=
  ∑ p' ∈ Finset.univ.erase p, (s.procs p').owns vm

theorem sum_procs (p : ProcId) (vm : Vm) :
    ∑ p', (s.procs p').owns vm = (s.procs p).owns vm + s.others p vm :=
  (Finset.add_sum_erase Finset.univ (fun p' => (s.procs p').owns vm) (Finset.mem_univ p)).symm

/-- Processes are not touched by code that owns nothing of theirs. -/
theorem others_kept {own own' : UInt64 → Nat} (moves : Moves own own' s.vm vm')
    (group : Finset ProcId)
    (sep : L.Owns s.vm (own + ∑ p ∈ group, (s.procs p).owns s.vm)) :
    (∑ p ∈ group, (s.procs p).owns vm' = ∑ p ∈ group, (s.procs p).owns s.vm) ∧
      ∀ p ∈ group, (s.procs p).Ok s.vm → (s.procs p).Ok vm' := by
  have each : ∀ p ∈ group, (s.procs p).owns vm' = (s.procs p).owns s.vm ∧
      ((s.procs p).Ok s.vm → (s.procs p).Ok vm') := by
    intro p member
    apply owns_kept moves
    apply sep.mono
    intro page
    have part := Finset.single_le_sum (f := fun p => (s.procs p).owns s.vm page)
      (fun _ _ => Nat.zero_le _) member
    rw [Pi.add_apply, Pi.add_apply, Finset.sum_apply]
    exact Nat.add_le_add_left part _
  exact ⟨Finset.sum_congr rfl fun p member => (each p member).1, fun p member => (each p member).2⟩

/-- One process and memory change. -/
theorem MemSys.Inv.setProc (inv : s.Inv pool kernel) (isPool : Pool L pool)
    (moves : Moves ((s.procs p).owns s.vm) (q.owns vm') s.vm vm') (ok : q.Ok vm') :
    MemSys.Inv pool kernel { s with vm := vm', procs := update s.procs p q } := by
  have sep := inv.separate isPool
  rw [MemSys.owns, sum_procs p, add_assoc, add_assoc] at sep
  have apart : L.Owns s.vm ((s.procs p).owns s.vm + s.others p s.vm) := by
    rw [← add_assoc] at sep
    exact sep.left
  obtain ⟨same, kept⟩ := others_kept moves _ apart
  have unchanged : ∀ p' ∈ Finset.univ.erase p, update s.procs p q p' = s.procs p' := fun p' member =>
    update_of_ne (Finset.ne_of_mem_erase member) _ _
  constructor
  · intro page
    have pre := inv.conserve page
    have moved := moves.conserve page
    have total := Finset.add_sum_erase Finset.univ (fun p' => (update s.procs p q p').owns vm')
      (Finset.mem_univ p)
    have rest : ∑ p' ∈ Finset.univ.erase p, (update s.procs p q p').owns vm' =
        s.others p s.vm := by
      rw [MemSys.others, ← same]
      apply Finset.sum_congr rfl
      intro p' member
      rw [unchanged p' member]
    rw [rest, update_self] at total
    rw [MemSys.owns, sum_procs p] at pre
    change _ + ((∑ p', (update s.procs p q p').owns vm' + s.pipePages) page + _) = _
    rw [← total]
    simp only [Pi.add_apply] at pre ⊢
    omega
  · intro p'
    by_cases here : p' = p
    · subst here
      change (update s.procs p' q p').Ok vm'
      rw [update_self]
      exact ok
    · have member : p' ∈ Finset.univ.erase p := Finset.mem_erase.mpr ⟨here, Finset.mem_univ p'⟩
      change (update s.procs p q p').Ok vm'
      rw [unchanged p' member]
      exact kept p' member (inv.procs p')
  · exact inv.files

/-- Files, pipes and memory change. -/
theorem MemSys.Inv.setFiles (inv : s.Inv pool kernel) (isPool : Pool L pool)
    (procs : s'.procs = s.procs) (moves : Moves s.pipePages s'.pipePages s.vm s'.vm)
    (files : FilesOk s'.files s'.pipes) : s'.Inv pool kernel := by
  have sep := inv.separate isPool
  rw [MemSys.owns, add_comm (∑ p, _)] at sep
  obtain ⟨same, kept⟩ := others_kept moves Finset.univ sep.left
  constructor
  · intro page
    have pre := inv.conserve page
    have moved := moves.conserve page
    rw [MemSys.owns] at pre ⊢
    rw [procs, same]
    simp only [Pi.add_apply] at pre ⊢
    omega
  · intro p
    rw [procs]
    exact kept p (Finset.mem_univ p) (inv.procs p)
  · exact files

/-! ### Files and pipes -/

/-- A panic that has nothing to do with memory. -/
def FilePanic : MemPanic → Prop
  | .vm _ => False
  | _ => True

/-- Between the parts of a call by process `p`. -/
structure MemSys.During (pool kernel : List UInt64) (p : ProcId) (s : MemSys) : Prop where
  inv : s.Inv pool kernel
  live : (s.procs p).life = .live

/-- A part of a call by process `p`. -/
abbrev CallPart (pool kernel : List UInt64) (p : ProcId) (prog : MemM α) : Prop :=
  Keeps (MemSys.During pool kernel p) FilePanic prog

theorem wp_onVm {prog : VmM α} {post : α → MemSys → Prop} :
    wp (onVm prog) post fail s ↔
      wp prog (fun value vm' => post value { s with vm := vm' }) (fun e => fail (.vm e)) s.vm := by
  simp only [wp, onVm]
  cases prog s.vm with
  | ok => rfl
  | error => rfl

section Files

variable {files files' : Fin nfile → MemFile} {pipes : UInt64 → PipeEnds} {f : Fin nfile}
  {pi : UInt64}

/-- Only the counts of files change. -/
theorem FilesOk.count (ok : FilesOk files pipes) (pipe : ∀ f, (files' f).pipe = (files f).pipe)
    (writable : ∀ f, (files' f).writable = (files f).writable)
    (unused : ∀ f, (files' f).ref = 0 → (files f).pipe = none) : FilesOk files' pipes := by
  constructor
  · intro f zero
    rw [pipe]
    exact unused f zero
  · intro f g page
    rw [pipe, pipe, writable, writable]
    exact ok.ends f g page
  · intro f page
    rw [pipe, writable]
    exact ok.opened f page
  · intro f page isWritable here isOpen
    rw [pipe] at here
    obtain ⟨g, there, same⟩ := ok.held f page isWritable here isOpen
    exact ⟨g, by rw [pipe, there], by rw [writable, same]⟩

/-- The count of one file changes. -/
theorem MemSys.Inv.setRef (inv : s.Inv pool kernel) (isPool : Pool L pool)
    (unused : n = 0 → (s.files f).pipe = none) :
    MemSys.Inv pool kernel
      { s with files := update s.files f { s.files f with ref := n } } := by
  have entry : ∀ g, update s.files f { s.files f with ref := n } g =
      { s.files g with ref := if g = f then n else (s.files g).ref } := by
    intro g
    by_cases here : g = f
    · subst here
      rw [update_self, if_pos rfl]
    · rw [update_of_ne here, if_neg here]
  have files : FilesOk (update s.files f { s.files f with ref := n }) s.pipes := by
    apply inv.files.count
    · intro g
      rw [entry]
    · intro g
      rw [entry]
    intro g zero
    rw [entry] at zero
    by_cases here : g = f
    · subst here
      rw [if_pos rfl] at zero
      exact unused zero
    · rw [if_neg here] at zero
      exact inv.files.unused g zero
  have same : MemSys.pipePages
      { s with files := update s.files f { s.files f with ref := n } } = s.pipePages := by
    funext page
    simp only [MemSys.pipePages, entry]
  refine inv.setFiles isPool rfl ?_ files
  rw [same]
  exact Moves.refl

/-- `filealloc`. -/
theorem filealloc_spec (isPool : Pool L pool) (during : s.During pool kernel p) :
    wp filealloc (fun found s' => s'.During pool kernel p ∧ ∀ f, found = some f →
        (s.files f).ref = 0 ∧ (s'.files f).ref ≠ 0 ∧ (s'.files f).pipe = none ∧
          ∀ g, g ≠ f → s'.files g = s.files g) FilePanic s := by
  rw [filealloc, wp_bind, wp_get]
  split
  · exact ⟨during, by rintro f ⟨⟩⟩
  rename_i f found
  have zero : (s.files f).ref = 0 := by
    have here := List.find?_some found
    exact of_decide_eq_true here
  refine ⟨⟨during.inv.setRef isPool (by rintro ⟨⟩), during.live⟩, ?_⟩
  rintro f' ⟨⟩
  dsimp only
  rw [update_self]
  exact ⟨zero, Nat.one_ne_zero, during.inv.files.unused f zero, fun g ne => update_of_ne ne _ _⟩

/-- `filedup`. -/
theorem filedup_spec (isPool : Pool L pool) (f : Fin nfile) : CallPart pool kernel p (filedup f) := by
  intro s during
  rw [filedup, wp_bind, wp_get]
  split
  · trivial
  · exact ⟨during.inv.setRef isPool fun zero => absurd zero (Nat.succ_ne_zero _), during.live⟩

theorem PipeEnds.isOpen_close (ends : PipeEnds) (writable other : Bool) :
    (ends.close writable).isOpen other = (ends.isOpen other && other != writable) := by
  cases writable with
  | true => cases other <;> simp [PipeEnds.close, PipeEnds.isOpen]
  | false => cases other <;> simp [PipeEnds.close, PipeEnds.isOpen]

variable {g : Fin nfile}

section

variable (ok : FilesOk files pipes) (here : (files f).pipe = some pi)
include ok here

/-- The last reference to a file of a pipe is dropped. -/
theorem FilesOk.close :
    FilesOk (update files f { files f with ref := 0, pipe := none })
      (update pipes pi ((pipes pi).close (files f).writable)) := by
  have other : ∀ g page, (update files f { files f with ref := 0, pipe := none } g).pipe =
      some page → g ≠ f ∧ (files g).pipe = some page := by
    intro g page points
    by_cases same : g = f
    · subst same
      rw [update_self] at points
      cases points
    · rw [update_of_ne same] at points
      exact ⟨same, points⟩
  have apart : ∀ g, g ≠ f → (files g).pipe = some pi → (files g).writable ≠ (files f).writable :=
    fun g ne there same => ne (ok.ends g f pi there here same)
  constructor
  · intro g zero
    by_cases same : g = f
    · rw [same, update_self]
    · rw [update_of_ne same] at zero ⊢
      exact ok.unused g zero
  · intro g g' page points points'
    obtain ⟨ne, there⟩ := other g page points
    obtain ⟨different', there'⟩ := other g' page points'
    rw [update_of_ne ne, update_of_ne different']
    exact ok.ends g g' page there there'
  · intro g page points
    obtain ⟨ne, there⟩ := other g page points
    rw [update_of_ne ne]
    have pre := ok.opened g page there
    by_cases same : page = pi
    · subst same
      rw [update_self, PipeEnds.isOpen_close, pre]
      simpa using apart g ne there
    · rw [update_of_ne same]
      exact pre
  intro g page writable points isOpen
  obtain ⟨_, there⟩ := other g page points
  have pre : (pipes page).isOpen writable = true ∧
      (page = pi → writable ≠ (files f).writable) := by
    by_cases same : page = pi
    · subst same
      rw [update_self, PipeEnds.isOpen_close, Bool.and_eq_true] at isOpen
      exact ⟨isOpen.1, fun _ => by simpa using isOpen.2⟩
    · rw [update_of_ne same] at isOpen
      exact ⟨isOpen, fun absurd => (same absurd).elim⟩
  obtain ⟨g', there', isEnd⟩ := ok.held g page writable there pre.1
  have notClosed : g' ≠ f := by
    rintro rfl
    rw [here] at there'
    exact pre.2 (Option.some.inj there').symm isEnd.symm
  exact ⟨g', by rw [update_of_ne notClosed, there'],
    by rw [update_of_ne notClosed, isEnd]⟩

/-- A file whose pipe has its other end closed was the only one of the pipe. -/
theorem FilesOk.last (there : (files g).pipe = some pi)
    (closed : ((pipes pi).close (files f).writable).readopen = false ∧
      ((pipes pi).close (files f).writable).writeopen = false) : g = f := by
  by_contra ne
  have apart : (files g).writable ≠ (files f).writable :=
    fun same => ne (ok.ends g f pi there here same)
  have stillOpen : ((pipes pi).close (files f).writable).isOpen (files g).writable = true := by
    rw [PipeEnds.isOpen_close, ok.opened g pi there]
    simpa using apart
  rw [PipeEnds.isOpen] at stillOpen
  split at stillOpen
  · rw [closed.2] at stillOpen
    cases stillOpen
  · rw [closed.1] at stillOpen
    cases stillOpen

/-- If an end is still open, there is another file of the pipe. -/
theorem FilesOk.another
    (notClosed : ¬ (((pipes pi).close (files f).writable).readopen = false ∧
      ((pipes pi).close (files f).writable).writeopen = false)) :
    ∃ g, g ≠ f ∧ (files g).pipe = some pi := by
  have someOpen : ∃ writable, ((pipes pi).close (files f).writable).isOpen writable = true := by
    by_contra none
    rw [not_exists] at none
    apply notClosed
    exact ⟨Bool.eq_false_of_not_eq_true (none false), Bool.eq_false_of_not_eq_true (none true)⟩
  obtain ⟨writable, isOpen⟩ := someOpen
  rw [PipeEnds.isOpen_close, Bool.and_eq_true] at isOpen
  obtain ⟨g, there, isEnd⟩ := ok.held f pi writable here isOpen.1
  refine ⟨g, ?_, there⟩
  rintro rfl
  rw [isEnd] at isOpen
  simp at isOpen

end

/-- The pages of pipes when a file is emptied: the page of its pipe is one of them
still if another file has it. -/
theorem pipePages_emptied
    (files : s'.files = update s.files f { s.files f with ref := 0, pipe := none })
    (page : UInt64) : s'.pipePages page =
      if ∃ g, g ≠ f ∧ (s.files g).pipe = some page then 1 else 0 := by
  have same : (∃ g, (s'.files g).pipe = some page) ↔
      ∃ g, g ≠ f ∧ (s.files g).pipe = some page := by
    rw [files]
    constructor
    · rintro ⟨g, points⟩
      by_cases here : g = f
      · rw [here, update_self] at points
        cases points
      · rw [update_of_ne here] at points
        exact ⟨g, here, points⟩
    · rintro ⟨g, ne, points⟩
      exact ⟨g, by rw [update_of_ne ne, points]⟩
  simp only [MemSys.pipePages, same]

/-- `pipeclose` after the file has been emptied. -/
theorem fileclose_pipe (isPool : Pool L pool) (during : s.During pool kernel p)
    (here : (s.files f).pipe = some pi) :
    wp (pipeclose L pi (s.files f).writable) (fun _ s' => s'.During pool kernel p) FilePanic
      { s with files := update s.files f { s.files f with ref := 0, pipe := none } } := by
  have closed := during.inv.files.close here
  rw [pipeclose, wp_bind, wp_get, wp_bind, wp_set]
  split_ifs with bothClosed
  · -- The page is freed; no other file has it.
    have onlyOne : ∀ g, (s.files g).pipe = some pi → g = f :=
      fun g there => during.inv.files.last here there bothClosed
    have pre : s.pipePages = tally [pi] + MemSys.pipePages
        { s with files := update s.files f { s.files f with ref := 0, pipe := none } } := by
      funext page
      rw [Pi.add_apply, MemSys.pipePages, pipePages_emptied (s := s) (f := f) rfl]
      by_cases same : page = pi
      · subst same
        rw [tally_self, if_pos ⟨f, here⟩, if_neg]
        rintro ⟨g, ne, there⟩
        exact ne (onlyOne g there)
      rw [tally_ne same, Nat.zero_add]
      have others : (∃ g, (s.files g).pipe = some page) ↔
          ∃ g, g ≠ f ∧ (s.files g).pipe = some page := by
        constructor
        · rintro ⟨g, there⟩
          refine ⟨g, ?_, there⟩
          rintro rfl
          rw [here] at there
          exact same (Option.some.inj there).symm
        · rintro ⟨g, _, there⟩
          exact ⟨g, there⟩
      simp only [others]
    have sep := during.inv.separate isPool
    have own : L.Owns s.vm (tally [pi]) := by
      rw [MemSys.owns, pre] at sep
      exact sep.left.right.left
    rw [wp_onVm]
    apply wp_imp (kfree_owned own)
    intro _ _ freed
    constructor
    · refine during.inv.setFiles isPool rfl ?_ closed
      have moves := freed.add (MemSys.pipePages
        { s with files := update s.files f { s.files f with ref := 0, pipe := none } })
      rw [zero_add, ← pre] at moves
      exact moves
    · exact during.live
  obtain ⟨g, ne, there⟩ := during.inv.files.another here bothClosed
  constructor
  · refine during.inv.setFiles isPool rfl ?_ closed
    have same : s.pipePages = MemSys.pipePages
        { s with
          files := update s.files f { s.files f with ref := 0, pipe := none }
          pipes := update s.pipes pi ((s.pipes pi).close (s.files f).writable) } := by
      funext page
      rw [MemSys.pipePages, pipePages_emptied (s := s) (f := f) rfl]
      have others : (∃ g, (s.files g).pipe = some page) ↔
          ∃ g, g ≠ f ∧ (s.files g).pipe = some page := by
        constructor
        · rintro ⟨g', there'⟩
          by_cases isF : g' = f
          · subst isF
            rw [here] at there'
            exact ⟨g, ne, there'.symm ▸ there⟩
          · exact ⟨g', isF, there'⟩
        · rintro ⟨g', _, there'⟩
          exact ⟨g', there'⟩
      simp only [others]
    rw [← same]
    exact Moves.refl
  · exact during.live

/-- `fileclose`. -/
theorem fileclose_spec (isPool : Pool L pool) (f : Fin nfile) :
    CallPart pool kernel p (fileclose L f) := by
  intro s during
  rw [fileclose, wp_bind, wp_get]
  split
  · trivial
  split_ifs with several
  · exact ⟨during.inv.setRef isPool fun zero => by omega, during.live⟩
  rw [wp_bind, wp_set]
  cases here : (s.files f).pipe with
  | some => exact fileclose_pipe isPool during here
  | none =>
    have inv := during.inv.setRef isPool (n := 0) fun _ => here
    dsimp only at inv
    rw [here] at inv
    exact ⟨inv, during.live⟩

/-- The two files of a new pipe. -/
def withPipe (files : Fin nfile → MemFile) (f0 f1 : Fin nfile) (pi : UInt64) : Fin nfile → MemFile :=
  update (update files f0 { files f0 with pipe := some pi, writable := false }) f1
    { files f1 with pipe := some pi, writable := true }

section NewPipe

variable {f0 f1 : Fin nfile} {pi : UInt64}

theorem withPipe_other (not0 : g ≠ f0) (not1 : g ≠ f1) : withPipe files f0 f1 pi g = files g := by
  rw [withPipe, update_of_ne not1, update_of_ne not0]

theorem withPipe_read (ne : f0 ≠ f1) :
    withPipe files f0 f1 pi f0 = { files f0 with pipe := some pi, writable := false } := by
  rw [withPipe, update_of_ne ne, update_self]

theorem withPipe_write :
    withPipe files f0 f1 pi f1 = { files f1 with pipe := some pi, writable := true } := by
  rw [withPipe, update_self]

/-- A file is one of the two new ones or an old one. -/
theorem withPipe_cases (files : Fin nfile → MemFile) (pi : UInt64) (ne : f0 ≠ f1) (g : Fin nfile) :
    (g = f0 ∧ (withPipe files f0 f1 pi g).pipe = some pi ∧
      (withPipe files f0 f1 pi g).writable = false) ∨
    (g = f1 ∧ (withPipe files f0 f1 pi g).pipe = some pi ∧
      (withPipe files f0 f1 pi g).writable = true) ∨
    (g ≠ f0 ∧ g ≠ f1 ∧ withPipe files f0 f1 pi g = files g) := by
  by_cases is0 : g = f0
  · subst is0
    rw [withPipe_read ne]
    exact .inl ⟨rfl, rfl, rfl⟩
  by_cases is1 : g = f1
  · subst is1
    rw [withPipe_write]
    exact .inr (.inl ⟨rfl, rfl, rfl⟩)
  · exact .inr (.inr ⟨is0, is1, withPipe_other is0 is1⟩)

/-- A new pipe has one file for each end. -/
theorem FilesOk.make (ok : FilesOk files pipes) (ne : f0 ≠ f1)
    (none0 : (files f0).pipe = none) (none1 : (files f1).pipe = none) (used0 : (files f0).ref ≠ 0)
    (used1 : (files f1).ref ≠ 0) (fresh : ∀ g, (files g).pipe ≠ some pi) :
    FilesOk (withPipe files f0 f1 pi)
      (update pipes pi { readopen := true, writeopen := true }) := by
  have pipeOf : ∀ g, (withPipe files f0 f1 pi g).pipe = some pi → g = f0 ∨ g = f1 := by
    intro g points
    rcases withPipe_cases files pi ne g with ⟨is0, _⟩ | ⟨is1, _⟩ | ⟨_, _, old⟩
    · exact .inl is0
    · exact .inr is1
    · rw [old] at points
      exact (fresh g points).elim
  have old : ∀ g page, page ≠ pi → (withPipe files f0 f1 pi g).pipe = some page →
      withPipe files f0 f1 pi g = files g := by
    intro g page other points
    rcases withPipe_cases files pi ne g with ⟨_, new, _⟩ | ⟨_, new, _⟩ | ⟨_, _, old⟩
    · exact (other (Option.some.inj (points.symm.trans new))).elim
    · exact (other (Option.some.inj (points.symm.trans new))).elim
    · exact old
  constructor
  · intro g zero
    rcases withPipe_cases files pi ne g with
      ⟨rfl, _⟩ | ⟨rfl, _⟩ | ⟨_, _, same⟩
    · rw [withPipe_read ne] at zero
      exact (used0 zero).elim
    · rw [withPipe_write] at zero
      exact (used1 zero).elim
    · rw [same] at zero ⊢
      exact ok.unused g zero
  · intro g g' page points points' sameEnd
    by_cases isNew : page = pi
    · subst isNew
      rcases pipeOf g points with rfl | rfl
      · rcases pipeOf g' points' with rfl | rfl
        · rfl
        · rw [withPipe_read ne, withPipe_write] at sameEnd
          cases sameEnd
      · rcases pipeOf g' points' with rfl | rfl
        · rw [withPipe_read ne, withPipe_write] at sameEnd
          cases sameEnd
        · rfl
    have same := old g page isNew points
    have same' := old g' page isNew points'
    rw [same] at points sameEnd
    rw [same'] at points' sameEnd
    exact ok.ends g g' page points points' sameEnd
  · intro g page points
    by_cases isNew : page = pi
    · rw [isNew, update_self, PipeEnds.isOpen]
      split
      · rfl
      · rfl
    · rw [update_of_ne isNew]
      have same := old g page isNew points
      rw [same] at points ⊢
      exact ok.opened g page points
  intro g page writable points isOpen
  by_cases isNew : page = pi
  · subst isNew
    cases writable with
    | false => exact ⟨f0, by rw [withPipe_read ne], by rw [withPipe_read ne]⟩
    | true => exact ⟨f1, by rw [withPipe_write], by rw [withPipe_write]⟩
  rw [update_of_ne isNew] at isOpen
  have same := old g page isNew points
  rw [same] at points
  obtain ⟨h, there, isEnd⟩ := ok.held g page writable points isOpen
  have notNew : withPipe files f0 f1 pi h = files h := by
    apply withPipe_other
    · rintro rfl
      rw [none0] at there
      cases there
    · rintro rfl
      rw [none1] at there
      cases there
  exact ⟨h, by rw [notNew, there], by rw [notNew, isEnd]⟩

theorem pipePages_make (ne : f0 ≠ f1) (none0 : (s.files f0).pipe = none)
    (none1 : (s.files f1).pipe = none) (files : s'.files = withPipe s.files f0 f1 pi)
    (fresh : ∀ g, (s.files g).pipe ≠ some pi) : s'.pipePages = tally [pi] + s.pipePages := by
  funext page
  rw [Pi.add_apply, MemSys.pipePages, MemSys.pipePages, files]
  by_cases isNew : page = pi
  · subst isNew
    rw [tally_self, if_pos ⟨f0, by rw [withPipe_read ne]⟩, if_neg (not_exists.mpr fresh)]
  rw [tally_ne isNew, Nat.zero_add]
  have same : (∃ g, (withPipe s.files f0 f1 pi g).pipe = some page) ↔
      ∃ g, (s.files g).pipe = some page := by
    constructor
    · rintro ⟨g, points⟩
      rcases withPipe_cases s.files pi ne g with ⟨_, new, _⟩ | ⟨_, new, _⟩ | ⟨_, _, old⟩
      · exact (isNew (Option.some.inj (points.symm.trans new))).elim
      · exact (isNew (Option.some.inj (points.symm.trans new))).elim
      · rw [old] at points
        exact ⟨g, points⟩
    rintro ⟨g, points⟩
    refine ⟨g, ?_⟩
    rw [withPipe_other, points]
    · rintro rfl
      rw [none0] at points
      cases points
    · rintro rfl
      rw [none1] at points
      cases points
  simp only [same]

end NewPipe

theorem pipeallocBad_spec (isPool : Pool L pool) (list : List (Fin nfile)) :
    CallPart pool kernel p (pipeallocBad L list) := by
  induction list with
  | nil => exact .pure none
  | cons f _ ih => exact (fileclose_spec isPool f).bind fun _ => ih

/-- Memory is taken for the pipe of two files that have none. -/
theorem pipeallocPage_spec (isPool : Pool L pool) (during : s.During pool kernel p)
    {f0 f1 : Fin nfile} (ne : f0 ≠ f1)
    (none0 : (s.files f0).pipe = none) (none1 : (s.files f1).pipe = none)
    (used0 : (s.files f0).ref ≠ 0) (used1 : (s.files f1).ref ≠ 0) :
    wp (do
        match ← onVm kalloc with
        | none => pipeallocBad L [f0, f1]
        | some pi =>
          modify fun s =>
            { s with
              pipes := update s.pipes pi { readopen := true, writeopen := true }
              files := withPipe s.files f0 f1 pi }
          pure (some (f0, f1)))
      (fun _ s' => s'.During pool kernel p) FilePanic s := by
  have sep := during.inv.separate isPool
  rw [wp_bind, wp_onVm]
  apply wp_imp kalloc_spec
  intro taken vm' moves
  have beside := moves.add s.pipePages
  rw [zero_add] at beside
  cases taken with
  | none =>
    apply pipeallocBad_spec isPool [f0, f1]
    constructor
    · refine during.inv.setFiles isPool rfl ?_ during.inv.files
      have nothing : tally ([] : List UInt64) = 0 := rfl
      change Moves _ (tally [] + s.pipePages) _ _ at beside
      rw [nothing, zero_add] at beside
      exact beside
    · exact during.live
  | some pi =>
    -- A page from the allocator is not the page of a pipe.
    have fresh : ∀ g, (s.files g).pipe ≠ some pi := by
      intro g points
      rw [← zero_add (s.owns + _)] at sep
      have single := ((moves.add _).separate sep).single pi
      have isPipe : s.pipePages pi = 1 := if_pos ⟨g, points⟩
      have newPage : tally (some pi).toList pi = 1 := tally_self pi
      simp only [Pi.add_apply, MemSys.owns] at single
      omega
    constructor
    · refine during.inv.setFiles isPool rfl ?_
        (during.inv.files.make ne none0 none1 used0 used1 fresh)
      have made : MemSys.pipePages
          { s with
            vm := vm'
            pipes := update s.pipes pi { readopen := true, writeopen := true }
            files := withPipe s.files f0 f1 pi } = tally [pi] + s.pipePages :=
        pipePages_make ne none0 none1 rfl fresh
      rw [made]
      exact beside
    · exact during.live

/-- `pipealloc`. -/
theorem pipealloc_spec (isPool : Pool L pool) : CallPart pool kernel p (pipealloc L) := by
  intro s during
  apply wp_seq (filealloc_spec isPool during)
  rintro found0 s1 ⟨during1, got0⟩
  cases found0 with
  | none => exact pipeallocBad_spec isPool [] s1 during1
  | some f0 =>
    obtain ⟨_, used0, none0, _⟩ := got0 f0 rfl
    apply wp_seq (filealloc_spec isPool during1)
    rintro found1 s2 ⟨during2, got1⟩
    cases found1 with
    | none => exact pipeallocBad_spec isPool [f0] s2 during2
    | some f1 =>
      obtain ⟨zero1, used1, none1, same⟩ := got1 f1 rfl
      have ne : f0 ≠ f1 := by
        rintro rfl
        exact used0 zero1
      rw [← same f0 ne] at none0 used0
      exact pipeallocPage_spec isPool during2 ne none0 none1 used0 used1

end Files

/-! ### The system calls -/

/-- The descriptors do not matter. -/
theorem setFd_spec (q : ProcId) (fd : Fin nofile) (f : Option (Fin nfile)) :
    CallPart pool kernel p (setFd q fd f) :=
  fun _ during => ⟨⟨during.inv.conserve, during.inv.procs, during.inv.files⟩, during.live⟩

theorem fdalloc_spec (f : Fin nfile) : CallPart pool kernel p (fdalloc p f) := by
  intro s during
  rw [fdalloc, wp_bind, wp_get]
  split
  · exact during
  · exact ((setFd_spec _ _ _).bind fun _ => .pure _) s during

/-- A call that works on the calling process. -/
theorem onProc_spec {prog : MemProc → VmM (MemProc × α)} (isPool : Pool L pool)
    (during : s.During pool kernel p)
    (spec : wp (prog (s.procs p)) (fun res vm' => Became s.vm (s.procs p) vm' res.1)
      (fun e => fail (.vm e)) s.vm) :
    wp (onProc p prog) (fun _ s' => s'.During pool kernel p) fail s := by
  rw [onProc, wp_bind, wp_get, wp_bind, wp_onVm]
  apply wp_imp spec
  intro res _ became
  constructor
  · exact during.inv.setProc isPool became.moves became.ok
  · change (update s.procs p res.1 p).life = .live
    rw [update_self, became.life]
    exact during.live

/-- What the calling process owns is separate. -/
theorem MemSys.During.separate (during : s.During pool kernel p) (isPool : Pool L pool) :
    L.Owns s.vm ((s.procs p).owns s.vm) := by
  have sep := during.inv.separate isPool
  rw [MemSys.owns, sum_procs p] at sep
  exact sep.left.left.left

section

variable (isPool : Pool L pool)
include isPool

theorem copyoutTo_spec (dstva : UInt64) (data : UInt64 → Nat → UInt64) (len : UInt64) :
    CallPart pool kernel p (copyoutTo p dstva data len) := by
  intro s during
  apply onProc_spec isPool during
  have ok := during.inv.procs p
  have sep := during.separate isPool
  obtain ⟨_, table, spaceOwned, space⟩ := ok.table during.live
  rw [MemProc.owns, spaceOwned] at sep
  rw [table]
  apply wp_seq (copyout_spec data sep.right space)
  rintro _ _ ⟨moves, space'⟩
  rw [← spaceOwned] at moves
  have became := Became.space ok during.live moves space'
  rw [← table] at became
  exact became

theorem pipeBad_spec (rf wf : Fin nfile) (list : List (Fin nofile)) :
    CallPart pool kernel p (pipeBad L p rf wf list) := by
  induction list with
  | nil =>
    refine (fileclose_spec isPool rf).bind fun _ => ?_
    exact (fileclose_spec isPool wf).bind fun _ => .pure _
  | cons fd _ ih => exact (setFd_spec p fd none).bind fun _ => ih

/-- `sys_pipe`. -/
theorem sysPipe_spec (fdarray : UInt64) (data : UInt64 → Nat → UInt64) :
    CallPart pool kernel p (sysPipe L p fdarray data) := by
  refine (pipealloc_spec isPool).bind fun made => ?_
  cases made with
  | none => exact .pure _
  | some files =>
    obtain ⟨rf, wf⟩ := files
    refine (fdalloc_spec rf).bind fun fd0 => ?_
    cases fd0 with
    | none => exact pipeBad_spec isPool rf wf []
    | some fd0 =>
      refine (fdalloc_spec wf).bind fun fd1 => ?_
      cases fd1 with
      | none => exact pipeBad_spec isPool rf wf [fd0]
      | some fd1 =>
        refine (copyoutTo_spec isPool fdarray data 4).bind fun done => ?_
        cases done with
        | false => exact pipeBad_spec isPool rf wf [fd0, fd1]
        | true =>
          refine (copyoutTo_spec isPool (fdarray + 4) data 4).bind fun done => ?_
          cases done with
          | false => exact pipeBad_spec isPool rf wf [fd0, fd1]
          | true => exact .pure _

theorem openFd_spec : CallPart pool kernel p (openFd L p) := by
  intro s during
  apply wp_seq (filealloc_spec isPool during)
  rintro found s1 ⟨during1, _⟩
  cases found with
  | none => exact during1
  | some f =>
    refine (fdalloc_spec f).bind (fun fd => ?_) s1 during1
    cases fd with
    | some => exact .pure _
    | none => exact (fileclose_spec isPool f).bind fun _ => .pure _

theorem sysDup_spec (fd : Fin nofile) : CallPart pool kernel p (sysDup p fd) := by
  intro s during
  rw [sysDup, wp_bind, wp_get]
  split
  · exact during
  rename_i f _
  refine (fdalloc_spec f).bind (fun fd' => ?_) s during
  cases fd' with
  | none => exact .pure _
  | some => exact (filedup_spec isPool f).bind fun _ => .pure _

theorem sysClose_spec (fd : Fin nofile) : CallPart pool kernel p (sysClose L p fd) := by
  intro s during
  rw [sysClose, wp_bind, wp_get]
  split
  · exact during
  rename_i f _
  refine (setFd_spec p fd none).bind (fun _ => ?_) s during
  exact (fileclose_spec isPool f).bind fun _ => .pure _

theorem dupFiles_spec (np : ProcId) (list : List (Fin nofile)) :
    CallPart pool kernel p (dupFiles p np list) := by
  induction list with
  | nil => exact .pure _
  | cons fd _ ih =>
    intro s during
    rw [dupFiles, wp_bind, wp_get]
    split
    · exact ih s during
    rename_i f _
    refine (filedup_spec isPool f).bind (fun _ => ?_) s during
    exact (setFd_spec np fd (some f)).bind fun _ => ih

/-- `fork`. -/
theorem sysFork_spec : CallPart pool kernel p (sysFork L p) := by
  intro s during
  rw [sysFork, wp_bind, wp_get]
  split
  · exact during
  rename_i np found
  have unused : (s.procs np).life = .unused := by
    have here := List.find?_some found
    exact of_decide_eq_true here
  have empty : s.procs np = {} := (during.inv.procs np).unused unused
  have ne : p ≠ np := by
    rintro rfl
    exact not_unused during.live unused
  rw [wp_bind, onProc, wp_bind, wp_get, wp_bind, wp_onVm, empty]
  apply wp_mono (fork_spec (during.inv.procs p) during.live (during.separate isPool)) _
    fun _ failed => failed.elim
  rintro ⟨child, made⟩ vm' ⟨moves, ok, _⟩
  have nothing : Moves ((s.procs np).owns s.vm) (child.owns vm') s.vm vm' := by
    rw [empty, owns_empty]
    exact moves
  have during1 : MemSys.During pool kernel p
      { s with vm := vm', procs := update s.procs np child } := by
    constructor
    · exact during.inv.setProc isPool nothing ok
    · change (update s.procs np child p).life = .live
      rw [update_of_ne ne]
      exact during.live
  cases made with
  | false => exact ⟨⟨during1.inv.conserve, during1.inv.procs, during1.inv.files⟩, during1.live⟩
  | true =>
    apply wp_seq (dupFiles_spec isPool np _ _ during1)
    intro _ _ during2
    exact ⟨⟨during2.inv.conserve, during2.inv.procs, during2.inv.files⟩, during2.live⟩

theorem closeFiles_spec (list : List (Fin nofile)) : CallPart pool kernel p (closeFiles L p list) := by
  induction list with
  | nil => exact .pure _
  | cons fd _ ih =>
    intro s during
    rw [closeFiles, wp_bind, wp_get]
    split
    · exact ih s during
    rename_i f _
    refine (fileclose_spec isPool f).bind (fun _ => ?_) s during
    exact (setFd_spec p fd none).bind fun _ => ih

/-- `exit` keeps the pages of the process for `wait`. -/
theorem sysExit_spec (during : s.During pool kernel p) :
    wp (sysExit L p) (fun _ s' => s'.Inv pool kernel) FilePanic s := by
  rw [sysExit]
  split
  · trivial
  apply wp_seq (closeFiles_spec isPool _ s during)
  intro _ s1 during1
  have ok := during1.inv.procs p
  have zombie : MemProc.Ok s1.vm { s1.procs p with life := .zombie } := by
    refine ⟨ok.space, ok.threads, ok.single, ?_, fun _ => ok.used (not_unused during1.live)⟩
    rintro ⟨⟩
  have same : Moves ((s1.procs p).owns s1.vm)
      (MemProc.owns { s1.procs p with life := .zombie } s1.vm) s1.vm s1.vm := Moves.refl
  have after := during1.inv.setProc isPool same zombie
  exact ⟨after.conserve, after.procs, after.files⟩

/-- A process is freed. -/
theorem reap_spec (inv : s.Inv pool kernel) (pp : ProcId) :
    wp (reap L pp) (fun _ s' => s'.Inv pool kernel) FilePanic s := by
  have sep := inv.separate isPool
  rw [MemSys.owns, sum_procs pp] at sep
  rw [reap, wp_bind, onProc, wp_bind, wp_get, wp_bind, wp_onVm, wp_bind]
  apply wp_mono (freeproc_spec (inv.procs pp).space sep.left.left.left) _
    fun _ failed => failed.elim
  rintro _ vm' ⟨rfl, moves⟩
  have after := inv.setProc isPool moves (ok_empty vm')
  exact ⟨after.conserve, after.procs, after.files⟩

/-- `wait`. -/
theorem sysWait_spec (during : s.During pool kernel p) (addr : UInt64)
    (data : UInt64 → Nat → UInt64) :
    wp (sysWait L p addr data) (fun _ s' => s'.Inv pool kernel) FilePanic s := by
  rw [sysWait, wp_bind, wp_get]
  split
  · exact during.inv
  split
  · exact reap_spec isPool during.inv _
  apply wp_seq (copyoutTo_spec isPool addr data 4 s during)
  intro done _ during1
  cases done with
  | false => exact during1.inv
  | true => exact reap_spec isPool during1.inv _

end

/-- Other threads become current. -/
theorem reschedule_became (cur : ThreadId) (states : ThreadId → ThreadState)
    (join : ThreadId → Int) (ok : q.Ok vm) (live : q.life = .live) :
    Became vm q vm (reschedule cur states join q) := by
  rw [reschedule]
  cases thread : q.currentThread with
  | none => exact Became.refl ok
  | some t =>
    apply Became.relabel ok live rfl
    · exact fun _ => rfl
    · intro _ isFree
      dsimp only at isFree
      split_ifs at isFree with notFree
      · exact isFree
      · exact (notFree isFree).elim
    · rintro ⟨⟩

/-- How a call by `p` may stop: the panics of exit and of the file table, and the
null pointer of `exit_thread(-1)` in a process without threads. -/
def MemCall.Stops (call : MemCall) : MemPanic → Prop
  | .vm e => e = .nullPointer ∧ call = .exitThread (-1)
  | _ => True

theorem MemCall.stops_of_file (call : MemCall) (e : MemPanic) (panic : FilePanic e) :
    call.Stops e := by
  cases e with
  | vm => exact panic.elim
  | initExiting => trivial
  | filedup => trivial
  | fileclose => trivial

/-- The result of a call that is thrown away. -/
theorem discard_spec {prog : MemM α}
    (spec : wp prog (fun _ s' => s'.During pool kernel p) FilePanic s) :
    wp (do let _ ← prog) (fun _ s' => s'.Inv pool kernel) call.Stops s := by
  rw [wp_bind]
  exact wp_mono spec (fun _ _ during => during.inv) call.stops_of_file

/-- Every call keeps the invariant. -/
theorem MemCall.run_spec (isPool : Pool L pool) (during : s.During pool kernel p) (call : MemCall) :
    wp (call.run L p) (fun _ s' => s'.Inv pool kernel) call.Stops s := by
  have ok := during.inv.procs p
  have live := during.live
  have sep := during.separate isPool
  cases call with
  | fork => exact discard_spec (sysFork_spec isPool s during)
  | forkDeadline => exact discard_spec (sysFork_spec isPool s during)
  | exec file data args terminated =>
    exact discard_spec (onProc_spec isPool during
      (sysExec_spec file data args terminated ok live sep))
  | exit => exact wp_mono (sysExit_spec isPool during) (fun _ _ inv => inv) (stops_of_file _)
  | wait addr data =>
    exact wp_mono (sysWait_spec isPool during addr data) (fun _ _ inv => inv) (stops_of_file _)
  | sbrk n => exact discard_spec (onProc_spec isPool during (growproc_spec n ok live sep))
  | pipe fdarray data => exact discard_spec (sysPipe_spec isPool fdarray data s during)
  | «open» => exact discard_spec (openFd_spec isPool s during)
  | dup fd => exact discard_spec (sysDup_spec isPool fd s during)
  | close fd => exact discard_spec (sysClose_spec isPool fd s during)
  | createThread => exact discard_spec (onProc_spec isPool during (createThread_spec ok live sep))
  | exitThread tid =>
    have spec := exitThread_spec tid ok live sep
    have stops : ∀ e, e = .nullPointer ∧ tid = -1 → (MemCall.exitThread tid).Stops (.vm e) := by
      rintro e ⟨isNull, rfl⟩
      exact ⟨isNull, rfl⟩
    apply wp_seq (onProc_spec isPool during (wp_mono spec (fun _ _ became => became) stops))
    intro _ _ during1
    exact during1.inv
  | reschedule cur states join =>
    have became := reschedule_became cur states join ok live
    exact during.inv.setProc isPool became.moves became.ok

/-! ### The boot -/

/-- What is on the free list after some rounds of `freerange`: distinct pages below
the next one. -/
structure Released (L : Layout) (next : UInt64) (vm : Vm) : Prop where
  nodup : vm.freelist.Nodup
  good : ∀ page ∈ vm.freelist, InPool L page ∧ page < next

variable {next : UInt64}

theorem Released.isPool (freed : Released L next vm) : Pool L vm.freelist :=
  ⟨freed.nodup, fun page member => (freed.good page member).1⟩

theorem toNat_next (high : next.toNat ≤ 0x88000000 + 4096) :
    (next + pgsize).toNat = next.toNat + 4096 := by
  change (next.toNat + 4096) % 2 ^ 64 = _
  omega

/-- `freerange` up to the end of memory. -/
theorem freerange_spec {rounds : Nat} (freed : Released L next vm) (aligned : Aligned next)
    (low : L.kend ≤ next) (enough : 0x88000000 < next.toNat + (rounds + 1) * 4096)
    (high : next.toNat ≤ 0x88000000 + 4096) :
    wp (freerange L phystop rounds next) (fun _ vm' => Pool L vm'.freelist) Never vm := by
  have bound : phystop.toNat = 0x88000000 := rfl
  induction rounds generalizing next vm with
  | zero =>
    have sum : (next + pgsize).toNat = next.toNat + 4096 := toNat_next high
    rw [freerange, if_neg]
    · exact freed.isPool
    · rw [pageFits_iff, UInt64.le_iff_toNat_le, sum, bound]
      omega
  | succ _ ih =>
    have sum : (next + pgsize).toNat = next.toNat + 4096 := toNat_next high
    rw [freerange]
    split_ifs with lt
    · rw [pageFits_iff, UInt64.le_iff_toNat_le, sum, bound] at lt
      have below : next < phystop := by
        rw [UInt64.lt_iff_toNat_lt, bound]
        omega
      have isNew : next ∉ vm.freelist := fun member =>
        absurd (freed.good next member).2 (UInt64.lt_irrefl next)
      rw [wp_bind]
      apply wp_kfree
      · intro refused
        exact (refused ⟨aligned, low, below⟩).elim
      have released1 : Released L (next + pgsize) (freePage vm next) := by
        constructor
        · exact List.nodup_cons.mpr ⟨isNew, freed.nodup⟩
        intro page member
        rw [UInt64.lt_iff_toNat_lt, sum]
        rcases List.mem_cons.mp member with rfl | pre
        · exact ⟨⟨aligned, low, below⟩, by omega⟩
        have old := freed.good page pre
        rw [UInt64.lt_iff_toNat_lt] at old
        exact ⟨old.1, by omega⟩
      apply ih released1
      · rw [Aligned] at aligned ⊢
        omega
      · rw [UInt64.le_iff_toNat_le] at low ⊢
        omega
      · omega
      · omega
    · exact freed.isPool

/-- `kinit` puts distinct pages on the free list. -/
theorem kinit_pool {mem : UInt64 → Nat → UInt64}
    (run : kinit L ⟨[], mem⟩ = .ok ((), vm')) : Pool L vm'.freelist := by
  have kendHigh : L.kend.toNat ≤ 0x88000000 := UInt64.le_iff_toNat_le.mp L.kend_high
  have kendLow : 0x80000000 ≤ L.kend.toNat := UInt64.le_iff_toNat_le.mp L.kend_low
  have round : (pgroundup L.kend).toNat = pagesOf L.kend * 4096 := toNat_pgroundup (by omega)
  have pages : pagesOf L.kend = (L.kend.toNat + 4095) / 4096 := rfl
  have freed : Released L (pgroundup L.kend) ⟨[], mem⟩ := by
    constructor
    · exact List.nodup_nil
    · intro _ member
      cases member
  have aligned : Aligned (pgroundup L.kend) := by
    rw [Aligned]
    omega
  have low : L.kend ≤ pgroundup L.kend := by
    rw [UInt64.le_iff_toNat_le]
    omega
  have enough : 0x88000000 < (pgroundup L.kend).toNat + (32768 + 1) * 4096 := by omega
  have high : (pgroundup L.kend).toNat ≤ 0x88000000 + 4096 := by omega
  have spec := freerange_spec freed aligned low enough high
  have pool := wp_run spec run
  exact pool

theorem takePages_spec :
    wp (takePages n) (fun pages vm' => Moves 0 (tally pages) vm vm') (fun _ => True) vm := by
  induction n generalizing vm with
  | zero => exact Moves.refl
  | succ _ ih =>
    apply wp_seq kalloc_spec
    intro taken _ moves1
    cases taken with
    | none => trivial
    | some page =>
      apply wp_seq ih
      intro _ _ moves2
      have later := Moves.add_left moves2 (tally [page])
      rw [add_zero, ← tally_cons] at later
      exact moves1.trans later

/-- The invariant holds after the boot. -/
theorem Booted.inv (booted : Booted L pool kernel s) : Pool L pool ∧ s.Inv pool kernel := by
  obtain ⟨_, vm0, _, _, code, init, ran, rfl, took, made, procs⟩ := booted.processes
  have isPool := kinit_pool ran
  have separate0 : L.Owns vm0 0 := by
    constructor
    · exact fun page => List.nodup_iff_count_le_one.mp isPool.nodup page
    · exact fun page here => isPool.good page (tally_pos.mp here)
  have moves1 := wp_run takePages_spec took
  have sep1 := moves1.separate separate0
  obtain ⟨moves2, ok, _⟩ := wp_run (userinit_spec code sep1.right) made rfl
  have entry : ∀ p, s.procs p = if p = initproc then init else {} := by
    intro p
    rw [procs]
    by_cases isInit : p = initproc
    · rw [isInit, update_self, if_pos rfl]
    · rw [update_of_ne isInit, if_neg isInit]
  have noPipes : s.pipePages = 0 := by
    funext page
    rw [MemSys.pipePages, booted.files, if_neg]
    · rfl
    · rintro ⟨_, ⟨⟩⟩
  have total : s.owns = init.owns s.vm := by
    have others : ∀ p, p ≠ initproc → (s.procs p).owns s.vm = 0 := by
      intro p notInit
      rw [entry, if_neg notInit, owns_empty]
    rw [MemSys.owns, noPipes, add_zero, Finset.sum_eq_single initproc (fun p _ => others p)
      (fun absurd => (absurd (Finset.mem_univ _)).elim), entry, if_pos rfl]
  refine ⟨isPool, ?_, ?_, ?_⟩
  · intro page
    have first := moves1.conserve page
    have second := moves2.conserve page
    rw [total]
    simp only [Pi.zero_apply] at first second
    omega
  · intro p
    rw [entry]
    split
    · exact ok
    · exact ok_empty s.vm
  rw [booted.files]
  constructor
  · exact fun _ _ => rfl
  · rintro f g page ⟨⟩
  · rintro f page ⟨⟩
  · rintro f _ _ ⟨⟩

/-! ### All runs -/

/-- A step is a call of a live process that returns. -/
theorem MemSys.step_cases {next : MemSys} (stepped : s.step L (p, call) = some next) :
    (s.procs p).life = .live ∧ ∃ value, call.run L p s = .ok (value, next) := by
  rw [MemSys.step] at stepped
  split at stepped
  · rename_i live
    refine ⟨live, ?_⟩
    split at stepped
    · rename_i value s' run
      cases stepped
      exact ⟨value, run⟩
    · cases stepped
  · cases stepped

theorem MemSys.Inv.run (booted : Booted L pool kernel start)
    (run : Run (MemSys.step L) (fun _ _ => True) start s) :
    Pool L pool ∧ s.Inv pool kernel := by
  obtain ⟨isPool, initially⟩ := booted.inv
  refine ⟨isPool, ?_⟩
  apply run.invariant initially
  rintro _ ⟨p, call⟩ _ inv _ stepped
  obtain ⟨live, _, ran⟩ := MemSys.step_cases stepped
  have after := wp_run (call.run_spec isPool ⟨inv, live⟩) ran
  exact after

variable {pt : UInt64}

/-- Where an address space has valid entries. -/
theorem space_valid_iff {v : Nat} (space : Space vm pt n) (small : v < 2 ^ 27) :
    vm.entry pt v &&& pteV ≠ 0 ↔ v < n ∨ KernelPage v := by
  by_cases low : v < n
  · exact iff_of_true (space.user v low).1 (.inl low)
  by_cases isKernel : KernelPage v
  · exact iff_of_true (space.fixed v small (by omega) isKernel).1.1 (.inr isKernel)
  rw [space.blank v small (by omega) isKernel]
  apply iff_of_false
  · decide
  rintro (lt | kernel)
  · exact low lt
  · exact isKernel kernel

/-- The size of a process is bounded by memory. -/
theorem MemSys.Inv.small (inv : s.Inv pool kernel) (isPool : Pool L pool)
    (table : (s.procs p).pagetable = some pt) : (s.procs p).sz.toNat < 2 ^ 63 := by
  have sep := inv.separate isPool
  rw [MemSys.owns, sum_procs p, MemProc.owns, MemProc.space, table] at sep
  have bound := pages_bound sep.left.left.left.right
  rw [pagesOf] at bound
  omega

/-- The page tables of a process map exactly the pages below its size and the two
pages of the kernel, whatever calls were made before. -/
theorem addressSpaces_shaped (booted : Booted L pool kernel start)
    (run : Run (MemSys.step L) (fun _ _ => True) start s) :
    (∀ p, (s.procs p).life ≠ .unused → ∃ pt, (s.procs p).pagetable = some pt ∧
      sv39.Inner Pointer s.vm.mem 2 pt ∧
      ∀ v < 2 ^ 27, (s.vm.entry pt v &&& pteV ≠ 0 ↔
          v * 4096 < (pgroundup (s.procs p).sz).toNat ∨ v * 4096 = trampolineVa.toNat ∨
            v * 4096 = trapframeVa.toNat) ∧
        (s.vm.entry pt v &&& pteV ≠ 0 → s.vm.entry pt v &&& (pteR ||| pteW ||| pteX) ≠ 0)) ∧
    ∀ (p : ProcId) (call : MemCall) (e : VmPanic), (s.procs p).life = .live →
      call.run L p s = .error (.vm e) → e = .nullPointer ∧ call = .exitThread (-1) := by
  obtain ⟨isPool, inv⟩ := MemSys.Inv.run booted run
  constructor
  · intro p inUse
    obtain ⟨pt, table⟩ := Option.ne_none_iff_exists'.mp ((inv.procs p).used inUse).1
    have space := (inv.procs p).space pt table
    refine ⟨pt, table, space.inner, fun v small => ⟨?_, ?_⟩⟩
    · rw [space_valid_iff space small, toNat_pgroundup (inv.small isPool table)]
      have first : trampolineVa.toNat = (2 ^ 26 - 1) * 4096 := by decide
      have second : trapframeVa.toNat = (2 ^ 26 - 2) * 4096 := by decide
      rw [KernelPage, first, second]
      omega
    intro valid
    rcases (space_valid_iff space small).mp valid with isUser | isKernel
    · exact (space.user v isUser).2
    by_cases low : v < pagesOf (s.procs p).sz
    · exact (space.user v low).2
    · exact (space.fixed v small (by omega) isKernel).1.2
  · intro p call e live stopped
    have stops := wp_error (call.run_spec isPool ⟨inv, live⟩) stopped
    exact stops

/-- Every page that `kinit` has freed is free or owned, and only once. -/
theorem pages_conserved (booted : Booted L pool kernel start)
    (run : Run (MemSys.step L) (fun _ _ => True) start s) (page : UInt64) :
    s.vm.freelist.count page + (∑ p, (s.procs p).owns s.vm page + s.pipePages page +
      kernel.count page) = if page ∈ pool then 1 else 0 := by
  obtain ⟨isPool, inv⟩ := MemSys.Inv.run booted run
  have all := inv.conserve page
  have once : tally pool page = if page ∈ pool then 1 else 0 := by
    split_ifs with member
    · exact List.count_eq_one_of_mem isPool.nodup member
    · exact List.count_eq_zero.mpr member
  rw [once, MemSys.owns, Pi.add_apply, Finset.sum_apply] at all
  exact all

/-! ### A boot and some calls -/

/-- A boot of the small kernel that takes one page for itself. -/
def smallBoot : Option (List UInt64 × List UInt64 × MemSys) :=
  match kinit smallLayout ⟨[], fun _ _ => 0⟩ with
  | .ok (_, vm0) =>
    match takePages 1 vm0 with
    | .ok (kernel, vm1) =>
      match userinit smallLayout {} (fun _ => 0) vm1 with
      | .ok ((init, true), vm) =>
        some (vm0.freelist, kernel,
          { vm := vm
            procs := update (fun _ => {}) initproc init
            parent := fun _ => none
            ofile := fun _ _ => none
            files := fun _ => {}
            pipes := fun _ => {} })
      | _ => none
    | _ => none
  | _ => none

theorem smallBoot_booted
    (ran : smallBoot = some (pool, kernel, s)) : Booted smallLayout pool kernel s := by
  rw [smallBoot] at ran
  split at ran
  · rename_i vm0 first
    split at ran
    · rename_i kernel' vm1 second
      split at ran
      · rename_i init vm third
        cases ran
        exact ⟨⟨_, vm0, vm1, 1, _, init, first, rfl, second, third, rfl⟩, rfl⟩
      · cases ran
    · cases ran
  · cases ran

/-- The first process makes a thread and a pipe, grows, and ends the thread. -/
def smallRun : List (ProcId × MemCall) :=
  [(0, .createThread), (0, .pipe 0 fun _ _ => 0), (0, .sbrk 4096), (0, .exitThread 2)]

theorem exists_smallRun (calls : List (ProcId × MemCall)) {P : MemSys → Prop} [DecidablePred P]
    (tested : (smallBoot.bind fun booted =>
      runFrom (MemSys.step smallLayout) booted.2.2 calls).any (fun s => decide (P s)) = true) :
    ∃ pool kernel start s, Booted smallLayout pool kernel start ∧
      Run (MemSys.step smallLayout) (fun _ _ => True) start s ∧ P s := by
  obtain ⟨s, executed, holds⟩ := (Option.any_eq_true _ _).mp tested
  obtain ⟨⟨pool, kernel, start⟩, ran, run⟩ := Option.bind_eq_some_iff.mp executed
  exact ⟨pool, kernel, start, s, smallBoot_booted ran, run_of_runFrom run, of_decide_eq_true holds⟩

/-- The process has two pages then, and no third. -/
theorem addressSpaces_shaped_after_sbrk :
    ∃ (s : MemSys) (pt : UInt64), (s.procs 0).pagetable = some pt ∧
      s.vm.entry pt 1 &&& pteV ≠ 0 ∧ ¬ s.vm.entry pt 2 &&& pteV ≠ 0 := by
  obtain ⟨_, kernel, _, s, booted, run, size, inUse⟩ := exists_smallRun smallRun
    (P := fun s => (s.procs 0).sz = 8192 ∧ (s.procs 0).life ≠ .unused) (by decide +kernel)
  obtain ⟨pt, table, _, entries⟩ := (addressSpaces_shaped booted run).1 0 inUse
  refine ⟨s, pt, table, ?_, ?_⟩
  · rw [(entries 1 (by decide)).1, size]
    decide
  · rw [(entries 2 (by decide)).1, size]
    decide

/-- The page of the pipe is not free and is owned once. -/
theorem pages_conserved_after_pipe :
    ∃ s : MemSys, s.pipePages (samplePage 4) = 1 ∧ s.vm.freelist.count (samplePage 4) = 0 := by
  obtain ⟨_, kernel, _, s, booted, run, isPipe⟩ := exists_smallRun smallRun
    (P := fun s => s.pipePages (samplePage 4) = 1) (by decide +kernel)
  have once := pages_conserved booted run (samplePage 4)
  refine ⟨s, isPipe, ?_⟩
  split at once
  · omega
  · omega

end Pages

end CustomXv6

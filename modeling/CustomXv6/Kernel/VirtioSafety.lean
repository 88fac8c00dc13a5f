/-
Module: CustomXv6.Kernel.VirtioSafety
Purpose: The descriptor protocol of the virtio disk driver, in every interleaving.
Trusted boundary: none
Main exports: Virtio.DiskSys.Inv, Virtio.virtio_protocol
-/
import CustomXv6.Kernel.VirtioDisk
import CustomXv6.Lib.Counting
import Mathlib.Data.List.Nodup

namespace CustomXv6

open Hoare
open Function

namespace Virtio

variable {s s' s'' : DiskSys} {xs ys : List Nat} {t : Nat} {pc pc' : DiskPc} {r : Request}

/-! ### Waking up -/

/-- A process that sleeps may have been woken. -/
def Woken (pc pc' : DiskPc) : Prop :=
  pc' = pc ∨ (∃ c, pc = .sleepFree c ∧ pc' = .acquireAlloc c) ∨
    ∃ r, pc = .sleepBuf r ∧ pc' = .acquireCheck r

theorem woken_wake (chan : DiskChan) (pc : DiskPc) : Woken pc (pc.wake chan) := by
  cases pc with
  | sleepFree c =>
    rw [DiskPc.wake]
    split
    · exact .inr (.inl ⟨c, rfl, rfl⟩)
    · exact .inl rfl
  | sleepBuf r =>
    rw [DiskPc.wake]
    split
    · exact .inr (.inr ⟨r, rfl, rfl⟩)
    · exact .inl rfl
  | _ => exact .inl rfl

theorem Woken.trans {pc'' : DiskPc} (first : Woken pc pc') (second : Woken pc' pc'') :
    Woken pc pc'' := by
  obtain rfl | ⟨c, rfl, rfl⟩ | ⟨r, rfl, rfl⟩ := first
  · exact second
  · obtain rfl | ⟨_, absurd, _⟩ | ⟨_, absurd, _⟩ := second
    · exact .inr (.inl ⟨c, rfl, rfl⟩)
    · cases absurd
    · cases absurd
  · obtain rfl | ⟨_, absurd, _⟩ | ⟨_, absurd, _⟩ := second
    · exact .inr (.inr ⟨r, rfl, rfl⟩)
    · cases absurd
    · cases absurd

def DiskPc.Holds : DiskPc → Prop
  | .allocating _ | .publishing _ | .checking _ => True
  | _ => False

/-- What the protocol depends on is the same for two places in the code. -/
structure SameRole (pc pc' : DiskPc) : Prop where
  buffer : pc'.buffer = pc.buffer
  request : pc'.request = pc.request
  posted : pc'.posted = pc.posted

theorem Woken.sameRole (woken : Woken pc pc') : SameRole pc pc' := by
  obtain rfl | ⟨_, rfl, rfl⟩ | ⟨_, rfl, rfl⟩ := woken
  · exact ⟨rfl, rfl, rfl⟩
  · exact ⟨rfl, rfl, rfl⟩
  · exact ⟨rfl, rfl, rfl⟩

theorem Woken.holds (woken : Woken pc pc') (holds : pc'.Holds) : pc' = pc := by
  obtain rfl | ⟨_, rfl, rfl⟩ | ⟨_, rfl, rfl⟩ := woken
  · rfl
  · cases holds
  · cases holds

theorem Woken.publishing (woken : Woken pc pc') (here : pc' = .publishing r) :
    pc = .publishing r := by
  rw [← woken.holds (by rw [here]; trivial)]
  exact here

theorem request_of_posted (posted : pc.posted = some r) : pc.request = some r := by
  cases pc with
  | checking => exact posted
  | sleepBuf => exact posted
  | acquireCheck => exact posted
  | _ => cases posted

theorem buffer_of_request (request : pc.request = some r) : pc.buffer = some r.b := by
  cases pc with
  | publishing => cases request; rfl
  | checking => cases request; rfl
  | sleepBuf => cases request; rfl
  | acquireCheck => cases request; rfl
  | _ => cases request

/-! ### Descriptors -/

/-- Descriptors have been given back, and nothing else has changed but who sleeps. -/
structure Released (xs : List Nat) (s s' : DiskSys) : Prop where
  free : ∀ x, s'.disk.free x = (s.disk.free x || xs.contains x)
  desc : ∀ x, x ∉ xs → s'.disk.desc x = s.disk.desc x
  woken : ∀ t, Woken (s.pc t) (s'.pc t)
  rest : s' = { s with
    disk := { s.disk with free := s'.disk.free, desc := s'.disk.desc }, pc := s'.pc }

theorem Released.refl (s : DiskSys) : Released [] s s :=
  ⟨fun _ => (Bool.or_false _).symm, fun _ _ => rfl, fun _ => .inl rfl, rfl⟩

theorem Released.trans (first : Released xs s s') (second : Released ys s' s'') :
    Released (xs ++ ys) s s'' := by
  refine ⟨?_, ?_, fun t => (first.woken t).trans (second.woken t), ?_⟩
  · intro x
    rw [second.free, first.free, Bool.or_assoc]
    congr 1
    rw [Bool.eq_iff_iff, Bool.or_eq_true, List.contains_iff_mem, List.contains_iff_mem,
      List.contains_iff_mem, List.mem_append]
  · intro x out
    rw [List.mem_append, not_or] at out
    rw [second.desc x out.2, first.desc x out.1]
  · rw [second.rest, first.rest]

/-- `free_desc` for a descriptor that is not free. -/
theorem freeDesc_spec {i : Nat} (bound : i < num) (taken : s.disk.free i = false) :
    wp (freeDesc i) (fun _ s' => Released [i] s s') Never s := by
  unfold freeDesc
  rw [if_neg (Nat.not_le.mpr bound), wp_bind, wp_get, taken, if_neg Bool.false_ne_true]
  refine ⟨?_, ?_, fun t => woken_wake .free (s.pc t), rfl⟩
  · intro x
    by_cases same : x = i
    · subst same
      simp [Disk.setFree, Disk.setDesc]
    · simp [Disk.setFree, Disk.setDesc, same]
  · intro x out
    exact update_of_ne (fun same => out (List.mem_singleton.mpr same)) _ _

/-- `free_desc` for several descriptors. -/
theorem freeDescs_spec : ∀ {s : DiskSys}, (∀ x ∈ xs, x < num) → xs.Nodup →
    (∀ x ∈ xs, s.disk.free x = false) →
    wp (xs.forM freeDesc) (fun _ s' => Released xs s s') Never s := by
  induction xs with
  | nil => exact fun {s} _ _ _ => .refl s
  | cons x xs ih =>
    intro s bounds distinct taken
    obtain ⟨fresh, distinct'⟩ := List.nodup_cons.mp distinct
    apply wp_seq (freeDesc_spec (bounds x (.head _)) (taken x (.head _)))
    intro _ s₁ freed
    have taken' : ∀ y ∈ xs, s₁.disk.free y = false := by
      intro y mem
      rw [freed.free, taken y (List.mem_cons_of_mem x mem), Bool.false_or,
        Bool.eq_false_iff, Ne, List.contains_iff_mem, List.mem_singleton]
      rintro rfl
      exact fresh mem
    apply wp_imp (ih (fun y mem => bounds y (.tail x mem)) distinct' taken')
    intro _ _ released'
    exact freed.trans released'

/-- `alloc_desc`. -/
theorem allocDesc_spec : wp allocDesc (fun found s' => (found = none ∧ s' = s) ∨
    ∃ i, found = some i ∧ i < num ∧ s.disk.free i = true ∧
      s' = { s with disk := s.disk.setFree i false }) Never s := by
  unfold allocDesc
  rw [wp_bind, wp_get]
  cases found : (List.range num).find? s.disk.free with
  | none => exact .inl ⟨rfl, rfl⟩
  | some i =>
    have bound := List.mem_range.mp (List.mem_of_find?_eq_some found)
    have free := List.find?_some found
    exact .inr ⟨i, rfl, bound, free, rfl⟩

/-- The state with some descriptors taken that were free. -/
def DiskSys.marked (s : DiskSys) (idx : List Nat) : DiskSys :=
  { s with disk := { s.disk with free := fun x => s.disk.free x && !idx.contains x } }

/-- Descriptors that were free. -/
structure Available (s : DiskSys) (idx : List Nat) : Prop where
  bound : ∀ x ∈ idx, x < num
  free : ∀ x ∈ idx, s.disk.free x = true
  nodup : idx.Nodup

theorem Available.snoc {idx : List Nat} {i : Nat} (available : Available s idx) (bound : i < num)
    (free : (s.marked idx).disk.free i = true) : Available s (idx ++ [i]) ∧
      (s.marked idx).disk.setFree i false = (s.marked (idx ++ [i])).disk := by
  have both : s.disk.free i = true ∧ i ∉ idx := by
    simpa [DiskSys.marked] using free
  refine ⟨⟨?_, ?_, ?_⟩, ?_⟩
  · intro x mem
    rw [List.mem_append, List.mem_singleton] at mem
    obtain lt | rfl := mem
    · exact available.bound x lt
    · exact bound
  · intro x mem
    rw [List.mem_append, List.mem_singleton] at mem
    obtain lt | rfl := mem
    · exact available.free x lt
    · exact both.1
  · rw [List.nodup_append]
    refine ⟨available.nodup, List.nodup_singleton i, ?_⟩
    rintro x lt y last rfl
    exact both.2 (List.mem_singleton.mp last ▸ lt)
  unfold Disk.setFree DiskSys.marked
  congr 1
  funext x
  by_cases same : x = i
  · subst same
    simp
  · simp [same]

/-- `alloc3_desc`: three different descriptors that were free, or everything is as before. -/
theorem allocDescs_spec (left : Nat) : ∀ {idx : List Nat}, Available s idx →
    wp (allocDescs left idx) (fun found s' =>
      (∃ all, found = some all ∧ all.length = idx.length + left ∧ Available s all ∧
        s' = s.marked all) ∨
      (found = none ∧ s'.disk.free = s.disk.free ∧
        (∀ x, s.disk.free x = false → s'.disk.desc x = s.disk.desc x) ∧
        (∀ t, Woken (s.pc t) (s'.pc t)) ∧
        s' = { s with disk := { s.disk with desc := s'.disk.desc }, pc := s'.pc }))
      Never (s.marked idx) := by
  induction left with
  | zero => exact fun {idx} available => .inl ⟨idx, rfl, rfl, available, rfl⟩
  | succ _ ih =>
    intro idx available
    apply wp_seq allocDesc_spec
    rintro found _ (⟨rfl, rfl⟩ | ⟨i, rfl, bound, free, rfl⟩)
    · dsimp only
      rw [wp_bind]
      have taken : ∀ x ∈ idx, (s.marked idx).disk.free x = false := by
        intro x mem
        simp [DiskSys.marked, mem]
      apply wp_imp (freeDescs_spec available.bound available.nodup taken)
      intro _ s₂ freed
      have restored : s₂.disk.free = s.disk.free := by
        funext x
        rw [freed.free]
        by_cases mem : x ∈ idx
        · simp [mem, available.free x mem]
        · simp [DiskSys.marked, mem]
      refine .inr ⟨rfl, restored, ?_, freed.woken, ?_⟩
      · intro x notFree
        rw [freed.desc x]
        · rfl
        intro mem
        rw [available.free x mem] at notFree
        cases notFree
      · rw [freed.rest, restored]
        rfl
    obtain ⟨available', same⟩ := available.snoc bound free
    rw [same]
    apply wp_imp (ih available')
    rintro _ _ (⟨all, rfl, size, rest⟩ | failed)
    · refine .inl ⟨all, rfl, ?_, rest⟩
      rw [size, List.length_append, List.length_singleton]
      omega
    · exact .inr failed

variable {d d' : Disk} {request : Nat → Option Request}

/-! ### Chains -/

/-- The descriptors of a request are linked to each other, and the last one points to the
status of the request. -/
structure Linked (d : Disk) (r : Request) : Prop where
  bound : ∀ x ∈ r.chain, x < num
  nodup : r.chain.Nodup
  first : (d.desc r.head).flags &&& descNext ≠ 0 ∧ (d.desc r.head).next = r.second
  second : (d.desc r.second).flags &&& descNext ≠ 0 ∧ (d.desc r.second).next = r.third
  third : (d.desc r.third).flags &&& descNext = 0 ∧ (d.desc r.third).addr = .status r.head

theorem Linked.congr {r : Request} (linked : Linked d r)
    (same : ∀ x ∈ r.chain, d'.desc x = d.desc x) : Linked d' r := by
  have first := same r.head (by simp [Request.chain])
  have second := same r.second (by simp [Request.chain])
  have third := same r.third (by simp [Request.chain])
  refine ⟨linked.bound, linked.nodup, ?_, ?_, ?_⟩
  · rw [first]
    exact linked.first
  · rw [second]
    exact linked.second
  · rw [third]
    exact linked.third

theorem Linked.statusAt {r : Request} (linked : Linked d r) :
    d.statusAt r.head = .status r.head := by
  rw [Disk.statusAt, linked.first.2, linked.second.2, linked.third.2]

/-- `virtio_disk_rw` links the three descriptors. -/
theorem linked_format (d : Disk) {r : Request} (write : Bool) (sector : UInt64)
    (bound : ∀ x ∈ r.chain, x < num) (nodup : r.chain.Nodup) :
    Linked (d.format r write sector) r := by
  have distinct := nodup
  simp only [Request.chain, List.nodup_cons, List.mem_cons, List.not_mem_nil, or_false, not_or]
    at distinct
  obtain ⟨⟨notSecond, notThird⟩, notThird', _⟩ := distinct
  have first : (d.format r write sector).desc r.head = ⟨.op r.head, 16, descNext, r.second⟩ := by
    simp [Disk.format, Disk.setDesc, notSecond, notThird]
  have second : (d.format r write sector).desc r.second =
      ⟨.data r.b, 1024, (if write then 0 else descWrite) ||| descNext, r.third⟩ := by
    simp [Disk.format, Disk.setDesc, notThird']
  have third : (d.format r write sector).desc r.third = ⟨.status r.head, 1, descWrite, 0⟩ := by
    simp [Disk.format, Disk.setDesc]
  refine ⟨bound, nodup, ?_, ?_, ?_⟩
  · rw [first]
    exact ⟨(by decide : descNext &&& descNext ≠ 0), rfl⟩
  · rw [second]
    refine ⟨?_, rfl⟩
    cases write with
    | false => exact (by decide : (descWrite ||| descNext) &&& descNext ≠ 0)
    | true => exact (by decide : (0 ||| descNext) &&& descNext ≠ 0)
  · rw [third]
    exact ⟨(by decide : descWrite &&& descNext = 0), rfl⟩

/-- `free_chain` gives back the three descriptors of a request. -/
theorem freeChain_spec {s : DiskSys} {r : Request} (linked : Linked s.disk r)
    (taken : ∀ x ∈ r.chain, s.disk.free x = false) :
    wp (freeChain (num + 1) r.head) (fun _ s' => Released r.chain s s') Never s := by
  have headIn : r.head ∈ r.chain := by simp [Request.chain]
  have secondIn : r.second ∈ r.chain := by simp [Request.chain]
  have thirdIn : r.third ∈ r.chain := by simp [Request.chain]
  have distinct := linked.nodup
  simp only [Request.chain, List.nodup_cons, List.mem_cons, List.not_mem_nil, or_false, not_or]
    at distinct
  obtain ⟨⟨notSecond, notThird⟩, notThird', _⟩ := distinct
  rw [freeChain, wp_bind, wp_get]
  apply wp_seq (freeDesc_spec (linked.bound _ headIn) (taken _ headIn))
  intro _ s₁ released₁
  rw [if_pos linked.first.1, linked.first.2, freeChain, wp_bind, wp_get, wp_bind]
  have taken₁ : s₁.disk.free r.second = false := by
    simp [released₁.free, taken _ secondIn, Ne.symm notSecond]
  apply wp_imp (freeDesc_spec (linked.bound _ secondIn) taken₁)
  intro _ s₂ released₂
  have desc₁ : s₁.disk.desc r.second = s.disk.desc r.second :=
    released₁.desc _ fun mem => notSecond (List.mem_singleton.mp mem).symm
  rw [desc₁, if_pos linked.second.1, linked.second.2, freeChain, wp_bind, wp_get, wp_bind]
  have both := released₁.trans released₂
  have taken₂ : s₂.disk.free r.third = false := by
    simp [both.free, taken _ thirdIn, Ne.symm notThird, Ne.symm notThird']
  apply wp_imp (freeDesc_spec (linked.bound _ thirdIn) taken₂)
  intro _ _ released₃
  have desc₂ : s₂.disk.desc r.third = s.disk.desc r.third := by
    apply both.desc
    simp [Ne.symm notThird, Ne.symm notThird']
  rw [desc₂, if_neg (not_not.mpr linked.third.1)]
  exact both.trans released₃

/-- The descriptors are partitioned into free ones and the chains of the requests. -/
structure Chains (d : Disk) (request : Nat → Option Request) : Prop where
  linked : ∀ {t r}, request t = some r → Linked d r
  info : ∀ {t r}, request t = some r → (d.info r.head).b = some r.b
  taken : ∀ {t r}, request t = some r → ∀ x ∈ r.chain, d.free x = false
  disjoint : ∀ {t u r q x}, request t = some r → request u = some q → x ∈ r.chain →
    x ∈ q.chain → t = u
  owned : ∀ x < num, d.free x = false → ∃ t r, request t = some r ∧ x ∈ r.chain

theorem head_mem (r : Request) : r.head ∈ r.chain := (.head _)

section

variable (chains : Chains d request)
include chains

/-- Requests with the same head are the same. -/
theorem Chains.eq_of_head {u : Nat} {r q : Request} (here : request t = some r)
    (there : request u = some q) (same : r.head = q.head) : t = u ∧ r = q := by
  obtain rfl := chains.disjoint here there (head_mem r) (same ▸ head_mem q)
  exact ⟨rfl, Option.some.inj (here.symm.trans there)⟩

/-- Descriptors that are free, and who sleeps, do not matter. -/
theorem Chains.congr (free : d'.free = d.free)
    (desc : ∀ x, d.free x = false → d'.desc x = d.desc x) (info : ∀ x, (d'.info x).b = (d.info x).b)
    : Chains d' request where
  linked here := (chains.linked here).congr fun x mem =>
    desc x (chains.taken here x mem)
  info here := (info _).trans (chains.info here)
  taken here x mem := by
    rw [free]
    exact chains.taken here x mem
  disjoint := chains.disjoint
  owned x bound notFree := by
    rw [free] at notFree
    exact chains.owned x bound notFree

/-- A request gets three descriptors that were free. -/
theorem Chains.claim {r : Request} (idle : request t = none) (linked : Linked d' r)
    (info : (d'.info r.head).b = some r.b) (wasFree : ∀ x ∈ r.chain, d.free x = true)
    (free : ∀ x, d'.free x = (d.free x && !r.chain.contains x))
    (desc : ∀ x, x ∉ r.chain → d'.desc x = d.desc x)
    (info' : ∀ x, x ≠ r.head → d'.info x = d.info x) : Chains d' (update request t (some r)) := by
  have apart : ∀ {u q x}, request u = some q → x ∈ q.chain → x ∉ r.chain := by
    intro u q x there lt mem
    have := chains.taken there x lt
    rw [wasFree x mem] at this
    cases this
  have cases : ∀ {u q}, update request t (some r) u = some q →
      (u = t ∧ q = r) ∨ (u ≠ t ∧ request u = some q) := by
    intro u q there
    by_cases same : u = t
    · subst same
      rw [update_self] at there
      exact .inl ⟨rfl, (Option.some.inj there).symm⟩
    · rw [update_of_ne same] at there
      exact .inr ⟨same, there⟩
  refine ⟨?_, ?_, ?_, ?_, ?_⟩
  · intro u q there
    obtain ⟨rfl, rfl⟩ | ⟨_, there⟩ := cases there
    · exact linked
    · exact (chains.linked there).congr fun x lt => desc x (apart there lt)
  · intro u q there
    obtain ⟨rfl, rfl⟩ | ⟨_, there⟩ := cases there
    · exact info
    · rw [info' q.head fun same => apart there (head_mem q) (same ▸ head_mem r)]
      exact chains.info there
  · intro u q there x lt
    rw [free]
    obtain ⟨rfl, rfl⟩ | ⟨_, there⟩ := cases there
    · simp [lt]
    · simp [chains.taken there x lt]
  · intro u v q p x there here lt inside'
    obtain ⟨rfl, rfl⟩ | ⟨_, there⟩ := cases there
    · obtain ⟨rfl, rfl⟩ | ⟨_, here⟩ := cases here
      · rfl
      · exact absurd lt (apart here inside')
    obtain ⟨_, same⟩ | ⟨_, here⟩ := cases here
    · rw [same] at inside'
      exact absurd inside' (apart there lt)
    · exact chains.disjoint there here lt inside'
  intro x bound notFree
  by_cases mem : x ∈ r.chain
  · exact ⟨t, r, update_self .., mem⟩
  rw [free] at notFree
  have wasTaken : d.free x = false := by simpa [mem] using notFree
  obtain ⟨u, q, there, lt⟩ := chains.owned x bound wasTaken
  refine ⟨u, q, ?_, lt⟩
  rw [update_of_ne]
  · exact there
  rintro rfl
  rw [idle] at there
  cases there

/-- A request gives its descriptors back. -/
theorem Chains.release {r : Request} (here : request t = some r)
    (free : ∀ x, d'.free x = (d.free x || r.chain.contains x))
    (desc : ∀ x, x ∉ r.chain → d'.desc x = d.desc x)
    (info : ∀ x, x ≠ r.head → (d'.info x).b = (d.info x).b) :
    Chains d' (update request t none) := by
  have cases : ∀ {u q}, update request t none u = some q → u ≠ t ∧ request u = some q := by
    intro u q there
    by_cases same : u = t
    · subst same
      rw [update_self] at there
      cases there
    · rw [update_of_ne same] at there
      exact ⟨same, there⟩
  have apart : ∀ {u q x}, u ≠ t → request u = some q → x ∈ q.chain → x ∉ r.chain := by
    intro u q x other there lt mem
    exact other (chains.disjoint there here lt mem)
  refine ⟨?_, ?_, ?_, ?_, ?_⟩
  · intro u q there
    obtain ⟨other, there⟩ := cases there
    exact (chains.linked there).congr fun x lt => desc x (apart other there lt)
  · intro u q there
    obtain ⟨other, there⟩ := cases there
    rw [info q.head fun same => apart other there (head_mem q) (same ▸ head_mem r)]
    exact chains.info there
  · intro u q there x lt
    obtain ⟨other, there⟩ := cases there
    rw [free]
    simp [chains.taken there x lt, apart other there lt]
  · intro u v q p x there here lt inside'
    exact chains.disjoint (cases there).2 (cases here).2 lt inside'
  intro x bound notFree
  rw [free, Bool.or_eq_false_iff] at notFree
  obtain ⟨u, q, there, lt⟩ := chains.owned x bound notFree.1
  refine ⟨u, q, ?_, lt⟩
  rw [update_of_ne]
  · exact there
  rintro rfl
  obtain rfl := Option.some.inj (there.symm.trans here)
  simp [lt] at notFree

/-! ### Requests at the device -/

end

/-- The heads that the device has not taken from the avail ring. -/
def DiskSys.availList (s : DiskSys) : List Nat :=
  RingBuffer.stretch s.disk.avail.ring num (2 ^ 16) s.fetched.toNat s.disk.avail.idx.toNat

/-- The heads that the driver has not seen in the used ring. -/
def DiskSys.usedList (s : DiskSys) : List Nat :=
  RingBuffer.stretch s.disk.used.ring num (2 ^ 16) s.disk.usedIdx.toNat s.disk.used.idx.toNat

/-- The heads that are on their way to the device, at the device, or on their way back. -/
def DiskSys.heads (s : DiskSys) : List Nat := s.availList ++ s.device ++ s.usedList

/-- Every head that is on its way belongs to one published request that is not done, and
every such request is on its way; on the way back its status is 0. -/
structure Flights (heads used : List Nat) (posted : Nat → Option Request) (busy : Nat → Bool)
    (info : Nat → Info) : Prop where
  nodup : heads.Nodup
  known : ∀ h ∈ heads, ∃ t r, posted t = some r ∧ r.head = h ∧ busy r.b = true
  complete : ∀ {t r}, posted t = some r → busy r.b = true → r.head ∈ heads
  status : ∀ h ∈ used, (info h).status = 0

theorem Flights.perm {heads heads' used : List Nat} {posted : Nat → Option Request}
    {busy : Nat → Bool} {info : Nat → Info} (flights : Flights heads used posted busy info)
    (perm : heads.Perm heads') : Flights heads' used posted busy info where
  nodup := perm.nodup_iff.mp flights.nodup
  known h mem := flights.known h (perm.mem_iff.mpr mem)
  complete here busy := perm.mem_iff.mp (flights.complete here busy)
  status := flights.status

structure DiskSys.Inv (s : DiskSys) : Prop where
  quiet : s.panicked = none
  chains : Chains s.disk fun t => (s.pc t).request
  flights : Flights s.heads s.usedList (fun t => (s.pc t).posted) s.busy s.disk.info
  buffers : Ownership.Exact (fun b => s.held b = true) fun t => (s.pc t).buffer
  lock : ∀ t, (s.pc t).Holds → s.lock = some (.proc t)
  ready : ∀ t r, s.pc t = .publishing r →
    s.busy r.b = true ∧ s.disk.avail.ring (s.disk.avail.idx.toNat % num) = r.head

namespace DiskSys

variable {h : Nat} {c : DiskCall} {act : DiskAction}

section

variable (inv : s.Inv)
include inv

/-- Two processes in a critical section are one. -/
theorem Inv.same_holder {u : Nat} (here : (s.pc t).Holds) (there : (s.pc u).Holds) : t = u := by
  have first := inv.lock t here
  rw [inv.lock u there] at first
  cases first
  rfl

theorem Inv.known (mem : h ∈ s.heads) :
    ∃ t r, (s.pc t).posted = some r ∧ (s.pc t).request = some r ∧ r.head = h ∧
      s.busy r.b = true := by
  obtain ⟨t, r, posted, head, busy⟩ := inv.flights.known h mem
  exact ⟨t, r, posted, request_of_posted posted, head, busy⟩

theorem Inv.head_taken (mem : h ∈ s.heads) : h < num ∧ s.disk.free h = false := by
  obtain ⟨_, r, _, request, rfl, _⟩ := inv.known mem
  exact ⟨(inv.chains.linked request).bound _ (head_mem r), inv.chains.taken request _ (head_mem r)⟩

theorem Inv.length_le : s.heads.length ≤ num := by
  have within : s.heads ⊆ List.range num := fun x mem =>
    List.mem_range.mpr (inv.head_taken mem).1
  have fewer := (inv.flights.nodup.subperm within).length_le
  rwa [List.length_range] at fewer

/-- A ring has a slot to spare as long as some descriptor is not the head of a request on its
way. -/
theorem Inv.room (bound : h < num) (absent : h ∉ s.heads) : s.heads.length < num := by
  have distinct : (h :: s.heads).Nodup := List.nodup_cons.mpr ⟨absent, inv.flights.nodup⟩
  have within : h :: s.heads ⊆ List.range num := by
    intro x mem
    rw [List.mem_range]
    cases mem with
    | head => exact bound
    | tail _ mem => exact (inv.head_taken mem).1
  have fewer := (distinct.subperm within).length_le
  rwa [List.length_range] at fewer

theorem Inv.avail_room (bound : h < num) (absent : h ∉ s.heads) : s.availList.length < num := by
  have total := inv.room bound absent
  rw [heads, List.length_append, List.length_append] at total
  omega

/-- Only the places of the processes change, and their roles do not. -/
theorem Inv.roles {pc : Nat → DiskPc} {lock : Option Holder}
    (roles : ∀ t, SameRole (s.pc t) (pc t)) (holds : ∀ t, (pc t).Holds → lock = some (.proc t))
    (publishing : ∀ t r, pc t = .publishing r → s.pc t = .publishing r) :
    Inv { s with pc := pc, lock := lock } := by
  have requests : (fun t => (pc t).request) = fun t => (s.pc t).request :=
    funext fun t => (roles t).request
  have posted : (fun t => (pc t).posted) = fun t => (s.pc t).posted :=
    funext fun t => (roles t).posted
  have buffers : (fun t => (pc t).buffer) = fun t => (s.pc t).buffer :=
    funext fun t => (roles t).buffer
  refine ⟨inv.quiet, ?_, ?_, ?_, holds, fun t r here => inv.ready t r (publishing t r here)⟩
  · dsimp only
    rw [requests]
    exact inv.chains
  · dsimp only
    rw [posted]
    exact inv.flights
  · dsimp only
    rw [buffers]
    exact inv.buffers

end

variable {α : Type} {prog : DiskM PUnit}

/-- The roles after one process has moved. -/
theorem update_role (f : DiskPc → α) (pc : Nat → DiskPc) (t : Nat) (v : DiskPc) :
    (fun u => f (update pc t v u)) = update (fun u => f (pc u)) t (f v) :=
  Function.comp_update f pc t v

theorem keep_role {f : DiskPc → α} {pc : Nat → DiskPc} {v : DiskPc} (same : f v = f (pc t)) :
    (fun u => f (update pc t v u)) = fun u => f (pc u) := by
  rw [update_role, same]
  exact update_eq_self t fun u => f (pc u)

/-- One process moves to a place with the same role. -/
theorem Inv.move (inv : s.Inv) {pc : DiskPc} {lock : Option Holder}
    (role : SameRole (s.pc t) pc) (holds : pc.Holds → lock = some (.proc t))
    (others : ∀ u, u ≠ t → (s.pc u).Holds → lock = some (.proc u))
    (publishing : ∀ r, pc ≠ .publishing r) :
    Inv { s with pc := update s.pc t pc, lock := lock } := by
  apply inv.roles
  · exact (Function.forall_update_iff s.pc fun u pc => SameRole (s.pc u) pc).mpr
      ⟨role, fun u _ => ⟨rfl, rfl, rfl⟩⟩
  · exact (Function.forall_update_iff s.pc fun u pc => pc.Holds → lock = some (.proc u)).mpr
      ⟨holds, others⟩
  refine (Function.forall_update_iff s.pc fun u pc =>
    ∀ r, pc = .publishing r → s.pc u = .publishing r).mpr ⟨?_, fun u _ r here => here⟩
  exact fun r here => absurd here (publishing r)

/-- Free descriptors are written to, and processes are woken. -/
theorem Inv.scribble (inv : s.Inv) {desc : Nat → Desc} {pc : Nat → DiskPc}
    (same : ∀ x, s.disk.free x = false → desc x = s.disk.desc x)
    (woken : ∀ t, Woken (s.pc t) (pc t)) :
    Inv { s with disk := { s.disk with desc := desc }, pc := pc } := by
  have moved : Inv { s with pc := pc, lock := s.lock } := by
    apply inv.roles (fun t => (woken t).sameRole)
    · intro t holds
      apply inv.lock
      rwa [← (woken t).holds holds]
    · exact fun t r here => (woken t).publishing here
  exact ⟨moved.quiet, moved.chains.congr rfl same fun _ => rfl, moved.flights, moved.buffers,
    moved.lock, moved.ready⟩

/-- A process calls `virtio_disk_rw`. -/
theorem Inv.call (inv : s.Inv) (idle : s.pc t = .returned) (unlocked : s.held c.b = false) :
    Inv { s with
      held := update s.held c.b true, pc := update s.pc t (.acquireAlloc c) } := by
  refine ⟨inv.quiet, ?_, ?_, ?_, ?_, ?_⟩
  · have requests := @keep_role t _ DiskPc.request s.pc (.acquireAlloc c) (by rw [idle]; rfl)
    exact requests ▸ inv.chains
  · have posted := @keep_role t _ DiskPc.posted s.pc (.acquireAlloc c) (by rw [idle]; rfl)
    exact posted ▸ inv.flights
  · apply inv.buffers.claim (p := t) (b := c.b)
    · rw [unlocked]
      exact Bool.false_ne_true
    · rw [idle]
      rfl
    · intro b
      by_cases same : b = c.b
      · simp [same]
      · simp [same]
    · intro u
      exact (congrFun (update_role DiskPc.buffer s.pc t _) u).trans (update_apply ..)
  · exact (Function.forall_update_iff s.pc fun u pc => pc.Holds → s.lock = some (.proc u)).mpr
      ⟨False.elim, fun u _ => inv.lock u⟩
  · refine (Function.forall_update_iff s.pc fun u pc => ∀ r, pc = .publishing r →
      s.busy r.b = true ∧ s.disk.avail.ring (s.disk.avail.idx.toNat % num) = r.head).mpr
      ⟨?_, fun u _ => inv.ready u⟩
    exact nofun

def filled (s : DiskSys) (t : Nat) (c : DiskCall) (r : Request) : DiskSys :=
  { s.marked r.chain with
    disk := (s.marked r.chain).disk.format r c.write c.sector
    busy := update s.busy c.b true
    pc := update s.pc t (.publishing r) }

/-- A process fills in its request. -/
theorem Inv.filled (inv : s.Inv) (allocating : s.pc t = .allocating c) (buffer : r.b = c.b)
    (available : Available s r.chain) : (s.filled t c r).Inv := by
  have fresh : r.head ∉ s.heads := by
    intro mem
    have taken := (inv.head_taken mem).2
    rw [available.free _ (head_mem r)] at taken
    cases taken
  have room := inv.avail_room (available.bound _ (head_mem r)) fresh
  have holds : (s.pc t).Holds := by
    rw [allocating]
    trivial
  have availSame : (s.filled t c r).availList = s.availList :=
    RingBuffer.stretch_update (by decide) s.fetched.toNat_lt room r.head
  have headsSame : (s.filled t c r).heads = s.heads := by
    rw [heads, availSame]
    rfl
  have others : ∀ {u q}, (s.pc u).posted = some q → q.b ≠ c.b := by
    intro u q posted same
    have here : (s.pc t).buffer = some c.b := by
      rw [allocating]
      rfl
    have there := buffer_of_request (request_of_posted posted)
    rw [same] at there
    obtain rfl := inv.buffers.single there here
    rw [allocating] at posted
    cases posted
  refine ⟨inv.quiet, ?_, ?_, ?_, ?_, ?_⟩
  · change Chains _ fun u => (update s.pc t (.publishing r) u).request
    rw [update_role DiskPc.request]
    apply inv.chains.claim
    · rw [allocating]
      rfl
    · exact linked_format _ _ _ available.bound available.nodup
    · simp [DiskSys.filled, Disk.format]
    · exact available.free
    · exact fun x => rfl
    · intro x out
      simp only [Request.chain, List.mem_cons, List.not_mem_nil, or_false, not_or] at out
      simp [DiskSys.filled, Disk.format, Disk.setDesc, out, marked]
    · intro x other
      simp [DiskSys.filled, Disk.format, other, marked]
  · have posted := @keep_role t _ DiskPc.posted s.pc (.publishing r) (by rw [allocating]; rfl)
    rw [headsSame]
    change Flights _ s.usedList (fun u => (update s.pc t (.publishing r) u).posted)
      (update s.busy c.b true) _
    rw [posted]
    refine ⟨inv.flights.nodup, ?_, ?_, ?_⟩
    · intro h mem
      obtain ⟨u, q, posted, head, busy⟩ := inv.flights.known h mem
      refine ⟨u, q, posted, head, ?_⟩
      rw [update_of_ne (others posted)]
      exact busy
    · intro u q posted busy
      rw [update_of_ne (others posted)] at busy
      exact inv.flights.complete posted busy
    intro h mem
    have ne : h ≠ r.head := by
      rintro rfl
      exact fresh (List.mem_append_right _ mem)
    have status := inv.flights.status h mem
    simpa [DiskSys.filled, Disk.format, ne, marked] using status
  · have buffers := @keep_role t _ DiskPc.buffer s.pc (.publishing r)
      (by rw [allocating]; exact congrArg some buffer)
    exact buffers ▸ inv.buffers
  · exact (Function.forall_update_iff s.pc fun u pc => pc.Holds → s.lock = some (.proc u)).mpr
      ⟨fun _ => inv.lock t holds, fun u _ => inv.lock u⟩
  refine (Function.forall_update_iff s.pc fun u pc => ∀ q, pc = .publishing q →
    (s.filled t c r).busy q.b = true ∧ (s.filled t c r).disk.avail.ring
      (s.disk.avail.idx.toNat % num) = q.head).mpr ⟨?_, ?_⟩
  · intro q here
    cases here
    constructor
    · rw [buffer]
      exact update_self ..
    · exact update_self ..
  · intro u other q here
    exact absurd (inv.same_holder (by rw [here]; trivial) holds) other

def published (s : DiskSys) (t : Nat) (r : Request) : DiskSys :=
  { s with
    disk := { s.disk with avail := { s.disk.avail with idx := s.disk.avail.idx + 1 } }
    pc := update s.pc t (.checking r) }

/-- A process publishes its request. -/
theorem Inv.published (inv : s.Inv) (publishing : s.pc t = .publishing r) :
    (s.published t r).Inv := by
  have request : (s.pc t).request = some r := by
    rw [publishing]
    rfl
  have holds : (s.pc t).Holds := by
    rw [publishing]
    trivial
  obtain ⟨busy, slot⟩ := inv.ready t r publishing
  have fresh : r.head ∉ s.heads := by
    intro mem
    obtain ⟨_, _, posted, request', head, _⟩ := inv.known mem
    obtain ⟨rfl, _⟩ := inv.chains.eq_of_head request' request head
    rw [publishing] at posted
    cases posted
  have room := inv.avail_room ((inv.chains.linked request).bound _ (head_mem r)) fresh
  have availMore : (s.published t r).availList = s.availList ++ [r.head] := by
    rw [← slot, availList, DiskSys.published]
    exact RingBuffer.stretch_succ (by decide) (by decide) s.fetched.toNat_lt room
  have perm : (r.head :: s.heads).Perm (s.published t r).heads := by
    change List.Perm _ ((s.published t r).availList ++ s.device ++ s.usedList)
    rw [availMore, List.append_assoc, List.append_assoc, List.singleton_append]
    refine List.Perm.trans ?_ List.perm_middle.symm
    rw [heads, List.append_assoc]
  refine ⟨inv.quiet, ?_, ?_, ?_, ?_, ?_⟩
  · have requests := @keep_role t _ DiskPc.request s.pc (.checking r) (by rw [publishing]; rfl)
    change Chains _ fun u => (update s.pc t (.checking r) u).request
    rw [requests]
    exact inv.chains.congr rfl (fun _ _ => rfl) fun _ => rfl
  · apply Flights.perm _ perm
    change Flights _ s.usedList (fun u => (update s.pc t (.checking r) u).posted) s.busy _
    rw [update_role DiskPc.posted]
    have none : (s.pc t).posted = none := by
      rw [publishing]
      rfl
    refine ⟨List.nodup_cons.mpr ⟨fresh, inv.flights.nodup⟩, ?_, ?_, inv.flights.status⟩
    · intro h mem
      cases mem with
      | head => exact ⟨t, r, update_self .., rfl, busy⟩
      | tail _ mem =>
        obtain ⟨u, q, posted, head, busy⟩ := inv.flights.known h mem
        refine ⟨u, q, ?_, head, busy⟩
        rw [update_of_ne]
        · exact posted
        rintro rfl
        rw [none] at posted
        cases posted
    intro u q posted busy
    by_cases same : u = t
    · subst same
      rw [update_self] at posted
      cases posted
      exact .head _
    · rw [update_of_ne same] at posted
      exact .tail _ (inv.flights.complete posted busy)
  · have buffers := @keep_role t _ DiskPc.buffer s.pc (.checking r) (by rw [publishing]; rfl)
    exact buffers ▸ inv.buffers
  · exact (Function.forall_update_iff s.pc fun u pc => pc.Holds → s.lock = some (.proc u)).mpr
      ⟨fun _ => inv.lock t holds, fun u _ => inv.lock u⟩
  refine (Function.forall_update_iff s.pc fun u pc => ∀ q, pc = .publishing q →
    s.busy q.b = true ∧ s.disk.avail.ring ((s.disk.avail.idx + 1).toNat % num) = q.head).mpr
    ⟨?_, ?_⟩
  · exact nofun
  · intro u other q here
    exact absurd (inv.same_holder (by rw [here]; trivial) holds) other

/-- The device takes a chain from the avail ring. -/
theorem Inv.fetched (inv : s.Inv) (waiting : s.fetched ≠ s.disk.avail.idx) :
    Inv { s with
      device := s.device ++ [s.disk.avail.ring (s.fetched.toNat % num)],
      fetched := s.fetched + 1 } := by
  have advance : s.availList = s.disk.avail.ring (s.fetched.toNat % num) ::
      RingBuffer.stretch s.disk.avail.ring num (2 ^ 16) (s.fetched + 1).toNat
        s.disk.avail.idx.toNat := by
    exact RingBuffer.stretch_advance (by decide) s.fetched.toNat_lt s.disk.avail.idx.toNat_lt
      fun same => waiting (UInt16.toNat_inj.mp same)
  have perm : s.heads.Perm (RingBuffer.stretch s.disk.avail.ring num (2 ^ 16)
      (s.fetched + 1).toNat s.disk.avail.idx.toNat ++
      (s.device ++ [s.disk.avail.ring (s.fetched.toNat % num)]) ++ s.usedList) := by
    rw [heads, advance]
    apply List.Perm.append_right
    rw [List.cons_append, ← List.append_assoc]
    exact (List.perm_append_singleton _ _).symm
  exact ⟨inv.quiet, inv.chains, inv.flights.perm perm, inv.buffers, inv.lock, inv.ready⟩

def completed (s : DiskSys) (head : Nat) : DiskSys :=
  { s with
    device := s.device.erase head
    disk := { s.disk with
      info := update s.disk.info head { s.disk.info head with status := 0 }
      used := ⟨s.disk.used.idx + 1, update s.disk.used.ring (s.disk.used.idx.toNat % num) head⟩ } }

/-- The device is done with a chain. -/
theorem Inv.completed (inv : s.Inv) {head : Nat} (working : head ∈ s.device) :
    wp (complete head) (fun _ s' => s' = s.completed head ∧ s'.Inv) Never s := by
  have inHeads : head ∈ s.heads := List.mem_append_left _ (List.mem_append_right _ working)
  obtain ⟨_, r, _, request, rfl, _⟩ := inv.known inHeads
  have state : wp (complete r.head) (fun _ s' => s' = s.completed r.head) Never s := by
    unfold complete
    rw [wp_modify, (inv.chains.linked request).statusAt]
    rfl
  apply wp_imp state
  rintro _ _ rfl
  refine ⟨rfl, inv.quiet, ?_, ?_, inv.buffers, inv.lock, inv.ready⟩
  · refine @Chains.congr _ (s.completed r.head).disk _ inv.chains rfl (fun _ _ => rfl) ?_
    intro x
    change (update s.disk.info r.head _ x).b = _
    by_cases same : x = r.head
    · rw [same, update_self]
    · rw [update_of_ne same]
  have fewer : s.usedList.length < num := by
    have total := inv.length_le
    have some := List.length_pos_of_mem working
    rw [heads, List.length_append, List.length_append] at total
    omega
  have usedMore : (s.completed r.head).usedList = s.usedList ++ [r.head] := by
    rw [usedList, DiskSys.completed]
    exact RingBuffer.stretch_write (by decide) (by decide) s.disk.usedIdx.toNat_lt fewer r.head
  have perm : s.heads.Perm (s.completed r.head).heads := by
    change List.Perm _ (s.availList ++ s.device.erase r.head ++ (s.completed r.head).usedList)
    have back : (s.device ++ s.usedList).Perm
        (s.device.erase r.head ++ (s.usedList ++ [r.head])) := by
      refine ((List.perm_cons_erase working).append_right _).trans ?_
      rw [List.cons_append, ← List.append_assoc]
      exact (List.perm_append_singleton _ _).symm
    rw [usedMore, heads, List.append_assoc, List.append_assoc]
    exact back.append_left _
  have moved := inv.flights.perm perm
  refine ⟨moved.nodup, moved.known, moved.complete, ?_⟩
  intro h mem
  rw [usedMore, List.mem_append, List.mem_singleton] at mem
  change (update s.disk.info r.head _ h).status = 0
  by_cases same : h = r.head
  · rw [same, update_self]
  · rw [update_of_ne same]
    exact inv.flights.status h (mem.resolve_right same)

/-- The state in which the interrupt handler has seen the next entry of the used ring. -/
def seen (s : DiskSys) (b : Nat) : DiskSys :=
  { s with
    busy := update s.busy b false
    pc := fun t => (s.pc t).wake (.buf b)
    disk := { s.disk with usedIdx := s.disk.usedIdx + 1 } }

/-- The request of the next entry in the used ring. -/
theorem Inv.next_used (inv : s.Inv) (more : s.disk.usedIdx ≠ s.disk.used.idx) :
    ∃ t r, (s.pc t).posted = some r ∧
      r.head = s.disk.used.ring (s.disk.usedIdx.toNat % num) ∧ s.busy r.b = true ∧
      s.usedList = r.head :: (s.seen r.b).usedList := by
  have advance : s.usedList = s.disk.used.ring (s.disk.usedIdx.toNat % num) ::
      RingBuffer.stretch s.disk.used.ring num (2 ^ 16) (s.disk.usedIdx + 1).toNat
        s.disk.used.idx.toNat := by
    exact RingBuffer.stretch_advance (by decide) s.disk.usedIdx.toNat_lt
      s.disk.used.idx.toNat_lt fun same => more (UInt16.toNat_inj.mp same)
  have inHeads : s.disk.used.ring (s.disk.usedIdx.toNat % num) ∈ s.heads := by
    apply List.mem_append_right
    rw [advance]
    exact .head _
  obtain ⟨t, r, posted, _, head, busy⟩ := inv.known inHeads
  refine ⟨t, r, posted, head, busy, ?_⟩
  rw [advance, head]
  rfl

/-- A round of the interrupt handler is for the request whose head the device returned. -/
theorem Inv.seen (inv : s.Inv) (posted : (s.pc t).posted = some r)
    (head : r.head = s.disk.used.ring (s.disk.usedIdx.toNat % num))
    (busy : s.busy r.b = true) (advance : s.usedList = r.head :: (s.seen r.b).usedList) :
    wp intr (fun _ s' => s' = s.seen r.b ∧ s'.Inv) Never s := by
  have status : (s.disk.info r.head).status = 0 := by
    apply inv.flights.status
    rw [advance]
    exact .head _
  have buffer := inv.chains.info (request_of_posted posted)
  have state : wp intr (fun _ s' => s' = s.seen r.b) Never s := by
    unfold intr
    rw [wp_bind, wp_get, ← head, if_neg (not_not.mpr status), buffer]
    rfl
  apply wp_imp state
  rintro _ _ rfl
  have woken : ∀ u, Woken (s.pc u) ((s.seen r.b).pc u) := fun u => woken_wake _ (s.pc u)
  have awake := @Inv.scribble s inv s.disk.desc _ (fun _ _ => rfl) woken
  -- Another request has another buffer.
  have others : ∀ {u q}, (s.pc u).posted = some q → q.head ≠ r.head → q.b ≠ r.b := by
    intro u q posted' ne same
    have there := buffer_of_request (request_of_posted posted')
    rw [same] at there
    obtain rfl := inv.buffers.single there (buffer_of_request (request_of_posted posted))
    obtain rfl := Option.some.inj (posted'.symm.trans posted)
    exact ne rfl
  have perm : s.heads.Perm (r.head :: (s.seen r.b).heads) := by
    rw [heads, advance]
    exact List.perm_middle
  have nodup := List.nodup_cons.mp (perm.nodup_iff.mp inv.flights.nodup)
  have postedSame : (fun u => ((s.seen r.b).pc u).posted) = fun u => (s.pc u).posted :=
    funext fun u => (woken u).sameRole.posted
  refine ⟨rfl, inv.quiet, awake.chains.congr rfl (fun _ _ => rfl) fun _ => rfl, ?_, awake.buffers,
    awake.lock, ?_⟩
  · rw [postedSame]
    refine ⟨nodup.2, ?_, ?_, ?_⟩
    · intro h mem
      obtain ⟨u, q, posted', rfl, busy'⟩ := inv.flights.known h (perm.mem_iff.mpr (.tail _ mem))
      have ne : q.head ≠ r.head := by
        intro same
        exact nodup.1 (same ▸ mem)
      refine ⟨u, q, posted', rfl, ?_⟩
      rw [← busy']
      exact update_of_ne (others posted' ne) _ _
    · intro u q posted' busy'
      have ne : q.b ≠ r.b := by
        intro same
        have cleared : (s.seen r.b).busy q.b = false := by
          rw [same]
          exact update_self ..
        rw [cleared] at busy'
        cases busy'
      have wasBusy : s.busy q.b = true := by
        rw [← busy']
        exact (update_of_ne ne _ _).symm
      have mem := perm.mem_iff.mp (inv.flights.complete posted' wasBusy)
      apply (List.mem_cons.mp mem).resolve_left
      intro same
      obtain ⟨_, rfl⟩ := inv.chains.eq_of_head (request_of_posted posted')
        (request_of_posted posted) same
      exact ne rfl
    · intro h mem
      apply inv.flights.status
      rw [advance]
      exact .tail _ mem
  intro u q here
  obtain ⟨busy', slot⟩ := awake.ready u q here
  refine ⟨?_, slot⟩
  rw [← busy']
  apply update_of_ne
  intro same
  -- A request that is not published is another one.
  have there := (woken u).publishing here
  have buffer' : (s.pc u).buffer = some r.b := by
    rw [there, ← same]
    rfl
  obtain rfl := inv.buffers.single buffer' (buffer_of_request (request_of_posted posted))
  rw [there] at posted
  cases posted

/-- The state in which `disk.info[idx[0]].b` is 0 again. -/
def cleared (s : DiskSys) (r : Request) : DiskSys :=
  { s with disk :=
    { s.disk with info := update s.disk.info r.head { s.disk.info r.head with b := none } } }

section

variable (inv : s.Inv)
include inv

/-- A process returns when its descriptors have been given back. -/
theorem Inv.returns (checking : s.pc t = .checking r)
    (done : s.busy r.b = false) (released : Released r.chain (s.cleared r) s') :
    Inv { s' with
      lock := none, held := update s'.held r.b false, pc := update s'.pc t .returned } := by
  have request : (s.pc t).request = some r := by
    rw [checking]
    rfl
  have posted : (s.pc t).posted = some r := by
    rw [checking]
    rfl
  have holds : (s.pc t).Holds := by
    rw [checking]
    trivial
  have freed := released.free
  have kept := released.desc
  have rest := released.rest
  -- Everything but the descriptors and the sleepers is known.
  obtain ⟨⟨_, _, _, _, _, _, _⟩, _, _, _, pc, _, _, panicked⟩ := s'
  obtain ⟨⟨-, rfl, rfl, -, rfl, rfl, rfl⟩, rfl, rfl, rfl, -, rfl, rfl, rfl⟩ := rest
  have woken : ∀ u, Woken (s.pc u) (pc u) := released.woken
  refine ⟨inv.quiet, ?_, ?_, ?_, ?_, ?_⟩
  · have requests : (fun u => (pc u).request) = fun u => (s.pc u).request :=
      funext fun u => (woken u).sameRole.request
    rw [update_role DiskPc.request, requests]
    apply inv.chains.release request freed kept
    intro x other
    exact congrArg Info.b (update_of_ne other _ _)
  · have postedSame : (fun u => (pc u).posted) = fun u => (s.pc u).posted :=
      funext fun u => (woken u).sameRole.posted
    dsimp only
    rw [update_role DiskPc.posted, postedSame]
    refine ⟨inv.flights.nodup, ?_, ?_, ?_⟩
    · intro h mem
      obtain ⟨u, q, posted', head, busy'⟩ := inv.flights.known h mem
      refine ⟨u, q, ?_, head, busy'⟩
      rw [update_of_ne]
      · exact posted'
      rintro rfl
      obtain rfl := Option.some.inj (posted'.symm.trans posted)
      rw [done] at busy'
      cases busy'
    · intro u q posted' busy'
      by_cases same : u = t
      · subst same
        rw [update_self] at posted'
        cases posted'
      · rw [update_of_ne same] at posted'
        exact inv.flights.complete posted' busy'
    intro h mem
    have status := inv.flights.status h mem
    change (update s.disk.info r.head _ h).status = 0
    by_cases same : h = r.head
    · rw [same, update_self]
      exact same ▸ status
    · rw [update_of_ne same]
      exact status
  · have buffers : (fun u => (pc u).buffer) = fun u => (s.pc u).buffer :=
      funext fun u => (woken u).sameRole.buffer
    have released' := @Ownership.Exact.release _ _ _ (fun b => update s.held r.b false b = true) _
      (update (fun u => (s.pc u).buffer) t none) inv.buffers (fun u => u = t) ?_ ?_ ?_
    · dsimp only
      rw [update_role DiskPc.buffer, buffers]
      exact released'
    · intro b
      by_cases same : b = r.b
      · simp [same, buffer_of_request request]
      have other : (s.pc t).buffer ≠ some b := by
        rw [buffer_of_request request]
        exact fun wrong => same (Option.some.inj wrong).symm
      simp [same, other]
    · rintro u rfl
      exact update_self ..
    · intro u other
      exact update_of_ne other _ _
  · intro u there
    by_cases same : u = t
    · subst same
      dsimp only at there
      rw [update_self] at there
      cases there
    · dsimp only at there
      rw [update_of_ne same] at there
      rw [(woken u).holds there] at there
      exact absurd (inv.same_holder there holds) same
  intro u q here
  by_cases same : u = t
  · subst same
    dsimp only at here
    rw [update_self] at here
    cases here
  · dsimp only at here
    rw [update_of_ne same] at here
    exact inv.ready u q ((woken u).publishing here)

/-- The loop of a process over `b->disk`. -/
theorem Inv.check (checking : s.pc t = .checking r) (done : s.busy r.b = false) :
    wp (check t r) (fun _ s' => s'.Inv ∧ s'.pc t = .returned ∧
      ∀ x, s'.disk.free x = (s.disk.free x || r.chain.contains x)) Never s := by
  have request : (s.pc t).request = some r := by
    rw [checking]
    rfl
  have spec := @freeChain_spec (s.cleared r) r
    ((inv.chains.linked request).congr fun _ _ => rfl) (inv.chains.taken request)
  unfold Virtio.check
  rw [wp_bind, wp_get, done, if_neg Bool.false_ne_true, wp_bind, wp_modify]
  apply wp_seq spec
  intro _ _ freed
  exact ⟨inv.returns checking done freed, update_self .., freed.free⟩

/-- A process that holds the lock gives it up. -/
theorem Inv.sleeps {pc : DiskPc} (holds : (s.pc t).Holds) (role : SameRole (s.pc t) pc)
    (leaves : ¬ pc.Holds) : Inv { s with pc := update s.pc t pc, lock := none } := by
  apply inv.move role
  · exact fun here => absurd here leaves
  · exact fun u other there => absurd (inv.same_holder there holds) other
  · rintro r rfl
    exact leaves trivial

/-- A process that sleeps is woken. -/
theorem Inv.wakes {pc : DiskPc} (role : SameRole (s.pc t) pc)
    (out : ¬ pc.Holds) : Inv { s with pc := update s.pc t pc } := by
  apply @Inv.move s t inv pc s.lock role
  · exact fun here => absurd here out
  · exact fun u _ => inv.lock u
  · rintro r rfl
    exact out trivial

/-- A process takes the lock. -/
theorem Inv.acquires {pc : DiskPc} (unlocked : s.lock = none)
    (role : SameRole (s.pc t) pc) (publishing : ∀ r, pc ≠ .publishing r) :
    Inv { s with pc := update s.pc t pc, lock := some (.proc t) } := by
  apply inv.move role (fun _ => rfl) _ publishing
  intro u _ there
  have held := inv.lock u there
  rw [unlocked] at held
  cases held

/-- `virtio_disk_rw` in front of `alloc3_desc`. -/
theorem Inv.allocate (allocating : s.pc t = .allocating c) :
    wp (allocate t c) (fun _ s' => s'.Inv) Never s := by
  have none : Available s [] := ⟨fun _ mem => absurd mem List.not_mem_nil,
    fun _ mem => absurd mem List.not_mem_nil, List.nodup_nil⟩
  have unmarked : s.marked [] = s := by simp [marked]
  have spec := allocDescs_spec 3 none
  rw [unmarked] at spec
  apply wp_seq spec
  rintro _ s' (⟨_, rfl, size, available, rfl⟩ | ⟨rfl, _, same, woken, state⟩)
  · obtain ⟨head, second, third, rfl⟩ := List.length_eq_three.mp size
    exact @Inv.filled s t ⟨c.b, head, second, third⟩ c inv allocating rfl available
  have awake := inv.scribble same woken
  rw [← state] at awake
  have here : s'.pc t = .allocating c := by
    have still := woken t
    rw [allocating] at still
    obtain here | ⟨_, absurd, _⟩ | ⟨_, absurd, _⟩ := still
    · exact here
    · cases absurd
    · cases absurd
  apply awake.sleeps (t := t)
  · rw [here]
    trivial
  · rw [here]
    exact ⟨rfl, rfl, rfl⟩
  · exact id

/-- Every step keeps the invariant and does not panic. -/
theorem Inv.perform (enabled : s.perform act = some prog) :
    wp prog (fun _ s' => s'.Inv) Never s := by
  cases act with
  | call u b write blockno =>
    rw [perform] at enabled
    split at enabled
    · rename_i idle
      cases enabled
      exact @Inv.call s u ⟨b, write, sectorOf blockno⟩ inv idle.1 idle.2
    · cases enabled
  | advance u =>
    rw [perform] at enabled
    split at enabled
    · rename_i c here
      split at enabled
      · rename_i unlocked
        cases enabled
        apply inv.acquires unlocked
        · rw [here]
          exact ⟨rfl, rfl, rfl⟩
        · exact nofun
      · cases enabled
    · rename_i c here
      cases enabled
      exact inv.allocate here
    · rename_i r here
      cases enabled
      exact inv.published here
    · rename_i r here
      cases enabled
      cases busy : s.busy r.b with
      | false => exact wp_imp (inv.check here busy) fun _ _ done => done.1
      | true =>
        rw [Virtio.check, wp_bind, wp_get, busy, if_pos rfl]
        apply inv.sleeps (t := u)
        · rw [here]
          trivial
        · rw [here]
          exact ⟨rfl, rfl, rfl⟩
        · exact id
    · rename_i r here
      split at enabled
      · rename_i unlocked
        cases enabled
        apply inv.acquires unlocked
        · rw [here]
          exact ⟨rfl, rfl, rfl⟩
        · exact nofun
      · cases enabled
    · cases enabled
  | kill u =>
    rw [perform] at enabled
    split at enabled
    · rename_i c here
      cases enabled
      apply inv.wakes _ id
      rw [here]
      exact ⟨rfl, rfl, rfl⟩
    · rename_i r here
      cases enabled
      apply inv.wakes _ id
      rw [here]
      exact ⟨rfl, rfl, rfl⟩
    · cases enabled
  | intrEnter =>
    rw [perform] at enabled
    split at enabled
    · rename_i unlocked
      cases enabled
      apply inv.roles (fun _ => ⟨rfl, rfl, rfl⟩) _ fun _ _ here => here
      intro u there
      have held := inv.lock u there
      rw [unlocked] at held
      cases held
    · cases enabled
  | intrRound =>
    rw [perform] at enabled
    split at enabled
    · rename_i more
      cases enabled
      obtain ⟨_, _, posted, head, busy, advance⟩ := inv.next_used more.2
      exact wp_imp (inv.seen posted head busy advance) fun _ _ seen => seen.2
    · cases enabled
  | intrLeave =>
    rw [perform] at enabled
    split at enabled
    · rename_i locked
      cases enabled
      apply inv.roles (fun _ => ⟨rfl, rfl, rfl⟩) _ fun _ _ here => here
      intro u there
      have held := inv.lock u there
      rw [locked.1] at held
      cases held
    · cases enabled
  | fetch =>
    rw [perform] at enabled
    split at enabled
    · rename_i waiting
      cases enabled
      exact inv.fetched waiting
    · cases enabled
  | complete _ =>
    rw [perform] at enabled
    split at enabled
    · rename_i working
      cases enabled
      exact wp_imp (inv.completed working) fun _ _ completed => completed.2
    · cases enabled

end

/-- What a step does that meets a specification without panics. -/
theorem step_of_wp {post : DiskSys → Prop} (enabled : s.perform act = some prog)
    (spec : wp prog (fun _ s' => post s') Never s) (ran : s.step act = some s') :
    post s' := by
  rw [step] at ran
  split at ran
  · rw [enabled] at ran
    obtain ⟨_, _, run, holds⟩ := exists_of_wp spec
    simp only [Option.map_some, run] at ran
    cases ran
    exact holds
  · cases ran

theorem Inv.step (inv : s.Inv) (ran : s.step act = some s') : s'.Inv := by
  cases enabled : s.perform act with
  | some => exact step_of_wp enabled (inv.perform enabled) ran
  | none =>
    rw [DiskSys.step, enabled] at ran
    split at ran <;> cases ran

theorem inv_start : start.Inv := by
  have none : start.heads = [] := by decide
  refine ⟨rfl, ⟨?_, ?_, ?_, ?_, ?_⟩, ⟨?_, ?_, ?_, ?_⟩, ⟨?_, ?_⟩, ?_, ?_⟩
  · exact nofun
  · exact nofun
  · exact nofun
  · exact nofun
  · intro x bound notFree
    have free : start.disk.free x = true := decide_eq_true bound
    rw [free] at notFree
    cases notFree
  · rw [none]
    exact List.nodup_nil
  · intro h mem
    cases mem
  · exact nofun
  · exact fun h _ => rfl
  · intro b
    constructor
    · exact nofun
    · rintro ⟨t, absurd⟩
      cases absurd
  · exact nofun
  · exact fun t absurd => absurd.elim
  · exact nofun

/-- There are always fewer requests on their way than descriptors, since a request has three
of them. -/
theorem Inv.length_lt (inv : s.Inv) : s.heads.length < num := by
  cases heads : s.heads with
  | nil => decide
  | cons h =>
    rw [← heads]
    obtain ⟨_, r, _, request, _⟩ := inv.known (h := h) (by rw [heads]; exact List.mem_cons_self)
    have secondIn : r.second ∈ r.chain := List.mem_cons_of_mem _ (.head _)
    have linked := inv.chains.linked request
    apply inv.room (linked.bound _ secondIn)
    intro mem
    obtain ⟨_, q, _, request', head, _⟩ := inv.known mem
    have lt : r.second ∈ q.chain := head ▸ head_mem q
    obtain rfl := inv.chains.disjoint request request' secondIn lt
    obtain rfl := Option.some.inj (request.symm.trans request')
    have distinct := linked.nodup
    rw [Request.chain, List.nodup_cons, ← head] at distinct
    exact distinct.1 (.head _)

end DiskSys

/-! ### The protocol -/

/-- What the driver guarantees in a state: no panic has happened; every descriptor is free and
in no chain, or in the chain of one request and not free; a chain has three different
descriptors linked to each other; the slot of the avail ring written next holds no entry the
device has not taken; a completion clears `b->disk` of the buffer whose request was returned
only; and a request that is done leaves its descriptors free. -/
structure DiskSys.Protocol (s : DiskSys) : Prop where
  noPanic : s.panicked = none
  partition : ∀ x < num,
    (s.disk.free x = true ∧ ∀ t r, (s.pc t).request = some r → x ∉ r.chain) ∨
    (s.disk.free x = false ∧ ∃! t, ∃ r, (s.pc t).request = some r ∧ x ∈ r.chain)
  chains : ∀ t r, (s.pc t).request = some r → Linked s.disk r
  avail : ∀ k < (s.disk.avail.idx - s.fetched).toNat,
    (s.fetched.toNat + k) % num ≠ s.disk.avail.idx.toNat % num
  completion : ∀ s', s.step .intrRound = some s' → ∃ t r, (s.pc t).posted = some r ∧
    r.head = s.disk.used.ring (s.disk.usedIdx.toNat % num) ∧ s.busy r.b = true ∧
    s'.busy = update s.busy r.b false
  finish : ∀ t r s', s.pc t = .checking r → s.busy r.b = false →
    s.step (.advance t) = some s' →
    s'.pc t = .returned ∧ ∀ x ∈ r.chain, s'.disk.free x = true

/-- In every interleaving the driver keeps to the protocol. -/
theorem virtio_protocol {s : DiskSys}
    (run : Transition.Run DiskSys.step (fun _ _ => True) DiskSys.start s) : s.Protocol := by
  have inv : s.Inv := run.invariant DiskSys.inv_start fun inv _ ran => inv.step ran
  refine ⟨inv.quiet, ?_, fun t r request => inv.chains.linked request, ?_, ?_, ?_⟩
  · intro x bound
    cases free : s.disk.free x with
    | true =>
      refine .inl ⟨rfl, fun t r request mem => ?_⟩
      have taken := inv.chains.taken request x mem
      rw [free] at taken
      cases taken
    | false =>
      obtain ⟨t, r, request, mem⟩ := inv.chains.owned x bound free
      refine .inr ⟨rfl, t, ⟨r, request, mem⟩, ?_⟩
      rintro u ⟨q, request', member'⟩
      exact inv.chains.disjoint request' request member' mem
  · intro k _ same
    have length : s.availList.length = (s.disk.avail.idx - s.fetched).toNat := by
      rw [DiskSys.availList, RingBuffer.stretch_length, UInt16.toNat_sub]
    have total := inv.length_lt
    rw [DiskSys.heads, List.length_append, List.length_append] at total
    have slot := @RingBuffer.stretch_slot num (2 ^ 16) s.fetched.toNat s.disk.avail.idx.toNat
      (by decide) s.fetched.toNat_lt
    rw [← UInt16.toNat_sub] at slot
    have equal := RingBuffer.slot_injective (by omega) (by omega) (same.trans slot.symm)
    omega
  · intro s' ran
    have enabled : s.lock = some .intr ∧ s.disk.usedIdx ≠ s.disk.used.idx := by
      by_contra disabled
      rw [DiskSys.step, DiskSys.perform, if_neg disabled] at ran
      split at ran <;> cases ran
    obtain ⟨t, r, posted, head, busy, advance⟩ := inv.next_used enabled.2
    have seen := DiskSys.step_of_wp (by rw [DiskSys.perform, if_pos enabled])
      (inv.seen posted head busy advance) ran
    refine ⟨t, r, posted, head, busy, ?_⟩
    rw [seen.1]
    rfl
  intro t r _ checking done ran
  have finished := DiskSys.step_of_wp (by rw [DiskSys.perform, checking])
    (inv.check checking done) ran
  refine ⟨finished.2.1, fun x mem => ?_⟩
  rw [finished.2.2]
  simp [mem]

/-- Three processes call, the third has to wait, and the second request is done first. -/
theorem virtio_protocol_three : ∃ s, Transition.Run DiskSys.step (fun _ _ => True)
    DiskSys.start s ∧ (s.pc 1 = .returned ∧ s.pc 0 = .sleepBuf ⟨10, 0, 1, 2⟩ ∧
      s.pc 2 = .acquireAlloc ⟨12, true, 14⟩) ∧ s.Protocol := by
  obtain ⟨s, run, reached⟩ := Transition.exists_run_of_runFrom DiskSys.step DiskSys.start
    [.call 0 10 false 5, .call 1 11 true 6, .call 2 12 true 7,
      .advance 0, .advance 0, .advance 0, .advance 0,
      .advance 1, .advance 1, .advance 1, .advance 1, .advance 2, .advance 2,
      .fetch, .fetch, .complete 3, .intrEnter, .intrRound, .intrLeave, .advance 1, .advance 1]
    (P := fun s => s.pc 1 = .returned ∧ s.pc 0 = .sleepBuf ⟨10, 0, 1, 2⟩ ∧
      s.pc 2 = .acquireAlloc ⟨12, true, 14⟩) (by decide +kernel)
  exact ⟨s, run, reached, virtio_protocol run⟩

end Virtio

end CustomXv6

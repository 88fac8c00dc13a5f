/-
Module: CustomXv6.User.MallocSafety
Purpose: The free list is circular and in address order, and blocks tile the memory.
Trusted boundary: none
Main exports: malloc_spec, malloc_free_sound, malloc_backed
-/
import CustomXv6.User.Malloc
import CustomXv6.Lib.Transition

namespace CustomXv6

open Hoare
open Function
open Tiling (cover)

namespace Malloc

/-! ### Accesses -/

section Access

variable {h : Heap} {x v : Nat} {post : PUnit → Heap → Prop} {fail : Stop → Prop}

/-- Below the break all is mapped. -/
theorem mapped_of_le (below : x + header ≤ h.brk) : h.mapped x = true := by
  rw [Heap.mapped, decide_eq_true_eq]
  omega

theorem access_spec (mapped : h.mapped x = true ∨ fail .fault) (holds : post ⟨⟩ h) :
    wp (access x) post fail h := by
  rw [access, wp_bind, wp_get]
  split
  · exact holds
  · rename_i unmapped
    exact mapped.resolve_left unmapped

theorem setPtr_spec (mapped : h.mapped x = true ∨ fail .fault)
    (holds : post ⟨⟩ { h with ptr := update h.ptr x v }) : wp (setPtr x v) post fail h :=
  (wp_bind _ _).mpr (access_spec mapped holds)

theorem setSize_spec (mapped : h.mapped x = true ∨ fail .fault)
    (holds : post ⟨⟩ { h with size := update h.size x (v % 2 ^ 32) }) :
    wp (setSize x v) post fail h :=
  (wp_bind _ _).mpr (access_spec mapped holds)

end Access

/-! ### Blocks -/

/-- A byte that `sbrk` handed out. -/
def Heap.Obtained (h : Heap) (addr : Nat) : Prop :=
  ∃ region ∈ h.regions, region.start ≤ addr ∧ addr < region.stop

instance (h : Heap) : DecidablePred h.Obtained := fun addr =>
  inferInstanceAs (Decidable (∃ region ∈ h.regions, region.start ≤ addr ∧ addr < region.stop))

/-- The blocks with these headers tile the memory obtained, which lies between the static
header and the break. -/
structure Blocks (base : Nat) (h : Heap) (heads : List Nat) : Prop where
  nonempty : ∀ x ∈ heads, 0 < h.size x
  exact : ∀ addr, cover header h.size heads addr = if h.Obtained addr then 1 else 0
  bounds : ∀ addr, h.Obtained addr → base + header ≤ addr ∧ addr < h.brk
  room : ∀ addr, h.Obtained addr → addr < 2 ^ 36

section Blocks

variable {base : Nat} {h h' : Heap} {heads others : List Nat} {x y : Nat}

section

variable (blocks : Blocks base h heads)
include blocks

theorem Blocks.perm (perm : heads.Perm others) : Blocks base h others where
  nonempty x mem := blocks.nonempty x (perm.mem_iff.mpr mem)
  exact addr := (Tiling.cover_perm perm).symm.trans (blocks.exact addr)
  bounds := blocks.bounds
  room := blocks.room

/-- Links do not matter. -/
theorem Blocks.congr (sizes : h'.size = h.size)
    (regions : h'.regions = h.regions) (brk : h'.brk = h.brk) : Blocks base h' heads := by
  obtain ⟨_, _⟩ := h'
  obtain ⟨ne, exact, bounds, room⟩ := blocks
  cases sizes
  cases regions
  cases brk
  exact ⟨ne, exact, bounds, room⟩

theorem Blocks.le_one (addr : Nat) : cover header h.size heads addr ≤ 1 := by
  rw [blocks.exact]
  split <;> omega

theorem Blocks.nodup : heads.Nodup :=
  Tiling.nodup_of_cover_le_one blocks.le_one fun x mem =>
    Nat.mul_pos (by decide) (blocks.nonempty x mem)

/-- Every byte of a block was obtained. -/
theorem Blocks.obtained (mem : x ∈ heads) {addr : Nat}
    (lt : x ≤ addr ∧ addr < x + header * h.size x) : h.Obtained addr := by
  have covered := Tiling.cover_pos mem lt
  rw [blocks.exact] at covered
  by_contra absent
  rw [if_neg absent] at covered
  exact absurd covered (Nat.lt_irrefl 0)

theorem Blocks.within (mem : x ∈ heads) :
    base + header ≤ x ∧ x + header * h.size x ≤ h.brk ∧
      x + header * h.size x ≤ 2 ^ 36 := by
  have some := blocks.nonempty x mem
  have first : h.Obtained x := by
    apply blocks.obtained mem
    dsimp only [header]
    omega
  have last : h.Obtained (x + header * h.size x - 1) := by
    apply blocks.obtained mem
    dsimp only [header]
    omega
  have low := blocks.bounds _ first
  have high := blocks.bounds _ last
  have room := blocks.room _ last
  omega

theorem Blocks.mapped (mem : x ∈ heads) : h.mapped x = true := by
  have within := (blocks.within mem).2.1
  have nonempty := blocks.nonempty x mem
  apply mapped_of_le
  dsimp only [header] at *
  omega

end

/-- Two blocks do not overlap. -/
theorem Blocks.apart (blocks : Blocks base h (x :: y :: heads)) :
    x + header * h.size x ≤ y ∨ y + header * h.size y ≤ x := by
  apply Tiling.apart_of_cover_le_one blocks.le_one
  · exact Nat.mul_pos (by decide) (blocks.nonempty x (.head _))
  · exact Nat.mul_pos (by decide)
      (blocks.nonempty y (.tail x (.head _)))

theorem Blocks.apart_of_mem (blocks : Blocks base h heads) (mem : x ∈ heads)
    (member' : y ∈ heads) (ne : x ≠ y) :
    x + header * h.size x ≤ y ∨ y + header * h.size y ≤ x := by
  have perm := List.perm_cons_erase mem
  have lt : y ∈ heads.erase x := (List.mem_erase_of_ne (Ne.symm ne)).mpr member'
  exact (blocks.perm (perm.trans ((List.perm_cons_erase lt).cons x))).apart

section

variable (blocks : Blocks base h (x :: y :: heads)) (adjacent : x + header * h.size x = y)
include blocks adjacent

/-- The size of two blocks that are joined fits a `uint`. -/
theorem Blocks.size_add : (h.size x + h.size y) % 2 ^ 32 = h.size x + h.size y := by
  have low := (blocks.within (.head _)).1
  have high := (blocks.within (.tail x (.head _))).2.2
  apply Nat.mod_eq_of_lt
  dsimp only [header] at *
  omega

/-- Two blocks are joined. -/
theorem Blocks.join {ptr : Nat → Nat} {freep : Nat} :
    Blocks base { h with
      size := update h.size x ((h.size x + h.size y) % 2 ^ 32), ptr := ptr, freep := freep }
      (x :: heads) := by
  have distinct := blocks.nodup
  have fresh : x ∉ heads := fun mem =>
    (List.nodup_cons.mp distinct).1 (.tail y mem)
  rw [blocks.size_add adjacent]
  refine ⟨?_, ?_, blocks.bounds, blocks.room⟩
  · intro z mem
    by_cases same : z = x
    · subst same
      have some := blocks.nonempty z (.head _)
      dsimp only
      rw [update_self]
      omega
    dsimp only
    rw [update_of_ne same]
    apply blocks.nonempty z
    cases mem with
    | head => exact absurd rfl same
    | tail _ mem => exact .tail x (.tail y mem)
  · intro addr
    exact (Tiling.cover_join adjacent fresh).trans (blocks.exact addr)

end

/-- The tail of a block is split off. -/
theorem Blocks.split {n : Nat} (blocks : Blocks base h (x :: heads)) (some : 0 < n)
    (less : n < h.size x) {ptr : Nat → Nat} {freep : Nat} :
    x + header * (h.size x - n) ∉ x :: heads ∧
    Blocks base { h with
      size := update (update h.size x (h.size x - n)) (x + header * (h.size x - n)) n,
      ptr := ptr, freep := freep }
      (x :: (x + header * (h.size x - n)) :: heads) := by
  have distinct := blocks.nodup
  have notFirst : x ≠ x + header * (h.size x - n) := by
    dsimp only [header]
    omega
  have fresh : x ∉ heads := (List.nodup_cons.mp distinct).1
  have fresh' : x + header * (h.size x - n) ∉ heads := by
    -- A block that started there would overlap the one that is split.
    intro mem
    have apart := blocks.apart_of_mem (.head _) (.tail x mem) notFirst
    dsimp only [header] at *
    omega
  refine ⟨?_, ?_, ?_, blocks.bounds, blocks.room⟩
  · rw [List.mem_cons, not_or]
    exact ⟨notFirst.symm, fresh'⟩
  · intro z mem
    dsimp only
    by_cases tail : z = x + header * (h.size x - n)
    · rw [tail, update_self]
      exact some
    rw [update_of_ne tail]
    by_cases same : z = x
    · rw [same, update_self]
      omega
    rw [update_of_ne same]
    apply blocks.nonempty z
    rw [List.mem_cons, List.mem_cons] at mem
    exact .tail x ((mem.resolve_left same).resolve_left tail)
  · intro addr
    exact (Tiling.cover_split (Nat.le_of_lt less) rfl notFirst fresh fresh').trans
      (blocks.exact addr)

end Blocks

/-! ### The free list -/

/-- The free list goes once around through the static header and the free blocks in the
order of their addresses; no two of them touch. -/
structure FreeList (base : Nat) (h : Heap) (xs : List Nat) : Prop where
  ring : CircularList.Path h.ptr base xs base
  cursor : h.freep ∈ base :: xs
  order : (base :: xs).Pairwise fun x y => x + header * h.size x < y

/-- The free list and the blocks in use are as they should be. -/
structure Tidy (base : Nat) (h : Heap) (xs others : List Nat) : Prop extends
    FreeList base h xs where
  sentinel : h.size base = 0
  blocks : Blocks base h (xs ++ others)
  above : base + header ≤ h.brk

variable {nbytes : UInt32}

section Tidy

variable {base : Nat} {h : Heap} {xs others front back : List Nat} {bp p x y : Nat}
variable {n q fuel : Nat} {answer : Option Nat} {F : Prop}

section

variable (tidy : Tidy base h xs others)
include tidy

theorem Tidy.lt : (base :: xs).Pairwise fun x y => x < y :=
  tidy.order.imp fun apart => Nat.lt_of_le_of_lt (Nat.le_add_right ..) apart

theorem Tidy.nodup : (base :: xs).Nodup := tidy.lt.imp Nat.ne_of_lt

theorem Tidy.base_lt (mem : x ∈ xs ++ others) : base < x := by
  have low := (tidy.blocks.within mem).1
  dsimp only [header] at low
  omega

theorem Tidy.mapped (mem : x ∈ base :: xs) : h.mapped x = true := by
  cases mem with
  | head => exact mapped_of_le tidy.above
  | tail _ mem => exact tidy.blocks.mapped (List.mem_append_left _ mem)

theorem Tidy.base_le (mem : x ∈ base :: xs) : base ≤ x := by
  cases mem with
  | head => exact Nat.le_refl base
  | tail _ mem => exact Nat.le_of_lt (tidy.base_lt (List.mem_append_left _ mem))

/-- A block in use is not free. -/
theorem Tidy.not_free (mem : x ∈ others) : x ∉ base :: xs := by
  intro lt
  cases lt with
  | head => exact absurd (tidy.base_lt (List.mem_append_right _ mem)) (Nat.lt_irrefl base)
  | tail _ lt =>
    exact (List.nodup_append.mp tidy.blocks.nodup).2.2 x lt x mem rfl

/-- The successor of an element of the free list: the next one in the order of addresses,
or the static header behind the last one. -/
theorem Tidy.next_eq (split : base :: xs = front ++ x :: back) :
    (∃ y back', back = y :: back' ∧ h.ptr x = y ∧ x < y) ∨ (back = [] ∧ h.ptr x = base) := by
  have path := tidy.ring.drop split
  cases back with
  | nil => exact .inr ⟨rfl, path⟩
  | cons y back' =>
    have order := tidy.lt
    rw [split, List.pairwise_append] at order
    exact .inl ⟨y, back', rfl, path.1, List.rel_of_pairwise_cons order.2.1 (.head _)⟩

end

/-- The last element of the free list before an address behind the static header. -/
theorem exists_prev (above : base < bp) :
    ∃ p ∈ base :: xs, p < bp ∧ ∀ z ∈ base :: xs, z < bp → z ≤ p := by
  induction xs with
  | nil =>
    refine ⟨base, .head _, above, ?_⟩
    intro z mem _
    exact Nat.le_of_eq (List.mem_singleton.mp mem)
  | cons x _ ih =>
    obtain ⟨p, mem, below, greatest⟩ := ih
    by_cases later : p < x ∧ x < bp
    · refine ⟨x, List.mem_cons_of_mem base (.head _), later.2, ?_⟩
      intro z member' below'
      rw [List.mem_cons, List.mem_cons] at member'
      obtain rfl | rfl | lt := member'
      · exact Nat.le_trans (greatest z (.head _) below') (Nat.le_of_lt later.1)
      · exact Nat.le_refl z
      · have := greatest z (List.mem_cons_of_mem base lt) below'
        omega
    refine ⟨p, ?_, below, ?_⟩
    · rw [List.mem_cons, List.mem_cons]
      exact (List.mem_cons.mp mem).imp_right .inr
    intro z member' below'
    rw [List.mem_cons, List.mem_cons] at member'
    obtain rfl | rfl | lt := member'
    · exact greatest z (.head _) below'
    · omega
    · exact greatest z (.tail base lt) below'

/-- The loop of `free` stops there and only there. -/
theorem Tidy.between_iff (tidy : Tidy base h xs others) (inUse : bp ∈ others)
    (mem : p ∈ base :: xs) (below : p < bp) (greatest : ∀ z ∈ base :: xs, z < bp → z ≤ p)
    (lt : x ∈ base :: xs) : h.between bp x = true ↔ x = p := by
  have above : base < bp := tidy.base_lt (List.mem_append_right _ inUse)
  have notFree := tidy.not_free inUse
  obtain ⟨_, _, split⟩ := List.append_of_mem lt
  have order := tidy.lt
  rw [split, List.pairwise_append] at order
  obtain ⟨_, behind, across⟩ := order
  have base_le := tidy.base_le lt
  simp only [Heap.between, Bool.or_eq_true, Bool.and_eq_true, decide_eq_true_eq]
  obtain ⟨y, _, rfl, next, _⟩ | ⟨rfl, next⟩ := tidy.next_eq split
  · rw [next]
    have yInside : y ∈ base :: xs := by
      rw [split]
      exact List.mem_append_right _ (.tail x (.head _))
    constructor
    · intro stops
      have low : x < bp := by omega
      have le := greatest x lt low
      -- Nothing of the list is between `x` and its successor.
      rw [split, List.mem_append, List.mem_cons] at mem
      obtain inFront | same | inBack := mem
      · have := across p inFront x List.mem_cons_self
        omega
      · exact same.symm
      rw [List.mem_cons] at inBack
      obtain _ | inBack := inBack
      · omega
      · have := List.rel_of_pairwise_cons (List.pairwise_cons.mp behind).2 inBack
        omega
    rintro rfl
    have notBelow : ¬ y < bp := fun small => by
      have := greatest y yInside small
      omega
    have ne : y ≠ bp := fun same => notFree (same ▸ yInside)
    omega
  rw [next]
  constructor
  · intro _
    have low : x < bp := by omega
    have le := greatest x lt low
    rw [split, List.mem_append, List.mem_singleton] at mem
    obtain inFront | same := mem
    · have := across p inFront x List.mem_cons_self
      omega
    · exact same.symm
  · rintro rfl
    omega

/-- A block between `joinNext` and `joinPrev`: the free list is still linked as before, the
block is linked to what is to come behind it. -/
structure Pending (base : Nat) (h : Heap) (xs front back others : List Nat) (bp p : Nat) :
    Prop where
  ring : CircularList.Path h.ptr base xs base
  linked : ∃ old, base :: xs = front ++ p :: old
  behind : CircularList.Path h.ptr bp back base
  list : ∃ ys, base :: ys = front ++ p :: back ∧ Blocks base h (bp :: (ys ++ others))
  order : (front ++ p :: back).Pairwise fun x y => x + header * h.size x < y
  next : ∀ y ∈ back, bp + header * h.size bp < y
  below : p < bp
  prev : p + header * h.size p ≤ bp
  sentinel : h.size base = 0
  above : base + header ≤ h.brk

/-- Blocks in use, and the memory obtained, stay as they are. -/
structure Keeps (others : List Nat) (h h' : Heap) : Prop where
  sizes : ∀ x ∈ others, h'.size x = h.size x
  brk : h'.brk = h.brk
  regions : h'.regions = h.regions

theorem exists_list (split : base :: xs = front ++ p :: back) (back' : List Nat) :
    ∃ ys, base :: ys = front ++ p :: back' := by
  cases front with
  | nil =>
    cases split
    exact ⟨back', rfl⟩
  | cons _ front =>
    obtain ⟨rfl, _⟩ := List.cons.inj split
    exact ⟨front ++ p :: back', rfl⟩

section

variable (tidy : Tidy base h xs (bp :: others))
include tidy

/-- A free block ends before a later block. -/
theorem Tidy.ends (mem : p ∈ base :: xs) (below : p < bp) : p + header * h.size p ≤ bp := by
  have inUse : bp ∈ xs ++ bp :: others := List.mem_append_right _ (.head _)
  cases mem with
  | head =>
    rw [tidy.sentinel]
    omega
  | tail _ mem =>
    have apart := tidy.blocks.apart_of_mem (List.mem_append_left _ mem) inUse
      (Nat.ne_of_lt below)
    omega

/-- A block ends before a later free block. -/
theorem Tidy.ends' (mem : y ∈ xs) (later : bp < y) : bp + header * h.size bp ≤ y := by
  have inUse : bp ∈ xs ++ bp :: others := List.mem_append_right _ (.head _)
  have apart := tidy.blocks.apart_of_mem inUse (List.mem_append_left _ mem)
    (Nat.ne_of_lt later)
  omega

/-- What is changed at a block in use only is as before in the free list. -/
theorem Tidy.elsewhere {α : Type} (f : Nat → α) (v : α)
    (mem : x ∈ base :: xs) : update f bp v x = f x := by
  apply update_of_ne
  rintro rfl
  exact tidy.not_free (.head _) mem

theorem Tidy.ring_update (v : Nat) : CircularList.Path (update h.ptr bp v) base xs base := by
  apply tidy.ring.congr (tidy.elsewhere h.ptr v (.head _))
  exact fun x mem => tidy.elsewhere h.ptr v (.tail base mem)

end

theorem mem_of_split (split : base :: xs = front ++ p :: back) (mem : x ∈ p :: back) :
    x ∈ base :: xs := by
  rw [split]
  exact List.mem_append_right _ mem

/-- Behind an element of the free list there are other blocks than the static header. -/
theorem Tidy.mem_behind (tidy : Tidy base h xs others) (split : base :: xs = front ++ p :: back)
    (mem : y ∈ back) : y ∈ xs := by
  cases mem_of_split split (.tail p mem) with
  | tail _ lt => exact lt
  | head =>
    have order := tidy.lt
    rw [split, List.pairwise_append] at order
    have later := List.rel_of_pairwise_cons order.2.1 mem
    have least := tidy.base_le (mem_of_split split (.head _))
    omega

section

variable (tidy : Tidy base h xs (bp :: others))
include tidy

/-- The blocks with the next free block in front. -/
theorem Tidy.blocks_next {ys : List Nat} (split : base :: xs = front ++ p :: q :: back)
    (list : base :: ys = front ++ p :: back) : Blocks base h (bp :: q :: (ys ++ others)) := by
  have moved : (base :: xs).Perm (base :: q :: ys) := by
    have middle : (front ++ p :: q :: back).Perm (q :: (front ++ p :: back)) := by
      rw [← List.singleton_append, ← List.append_assoc]
      refine List.perm_middle.trans ?_
      rw [List.append_assoc, List.singleton_append]
    rw [← list, ← split] at middle
    exact middle.trans (.swap base q ys)
  exact tidy.blocks.perm (List.perm_middle.trans ((moved.cons_inv.append_right others).cons bp))

/-- The state in which the block has been joined with the next one. -/
theorem Tidy.pending_join (split : base :: xs = front ++ p :: q :: back) (below : p < bp)
    (adjacent : bp + header * h.size bp = q) :
    Pending base { h with
      size := update h.size bp ((h.size bp + h.size q) % 2 ^ 32),
      ptr := update h.ptr bp (h.ptr q) } xs front back others bp p := by
  obtain ⟨ys, list⟩ := exists_list split back
  have lt : p ∈ base :: xs := mem_of_split split (.head _)
  have blocks := tidy.blocks_next split list
  have order := tidy.order
  rw [split] at order
  have fewer : (front ++ p :: back).Sublist (front ++ p :: q :: back) :=
    ((List.sublist_cons_self q back).cons_cons p).append_left front
  refine ⟨tidy.ring_update _, ⟨q :: back, split⟩, ?_, ⟨ys, list, blocks.join adjacent⟩, ?_, ?_, below,
    ?_, ?_, tidy.above⟩
  · apply (tidy.ring.drop split).2.congr (update_self ..)
    intro x mem
    exact tidy.elsewhere h.ptr _
      (mem_of_split split (.tail p (.tail q mem)))
  · apply (order.sublist fewer).imp_of_mem
    intro x y mem _ apart
    rw [← split] at fewer
    dsimp only
    rw [tidy.elsewhere h.size _ (fewer.subset mem)]
    exact apart
  · intro y mem
    have behind := (List.pairwise_cons.mp (List.pairwise_cons.mp
      (List.pairwise_append.mp order).2.1).2).1 y mem
    dsimp only
    rw [update_self, blocks.size_add adjacent]
    dsimp only [header] at *
    omega
  · dsimp only
    rw [tidy.elsewhere h.size _ lt]
    exact tidy.ends lt below
  · dsimp only
    rw [tidy.elsewhere h.size _ List.mem_cons_self]
    exact tidy.sentinel

/-- The state in which the block has been linked to the next one. -/
theorem Tidy.pending_link (split : base :: xs = front ++ p :: back) (below : p < bp)
    (later : ∀ y ∈ back, bp < y) (gap : bp + header * h.size bp ≠ h.ptr p) :
    Pending base { h with ptr := update h.ptr bp (h.ptr p) } xs front back others bp p := by
  have lt : p ∈ base :: xs := mem_of_split split (.head _)
  have order := tidy.order
  rw [split] at order
  refine ⟨tidy.ring_update _, ⟨back, split⟩, ?_, ⟨xs, split, ?_⟩, order, ?_, below,
    tidy.ends lt below, tidy.sentinel, tidy.above⟩
  · apply (tidy.ring.drop split).congr (update_self ..)
    intro x mem
    exact tidy.elsewhere h.ptr _ (mem_of_split split (.tail p mem))
  · exact (tidy.blocks.perm List.perm_middle).congr rfl rfl rfl
  intro y mem
  have ends := tidy.ends' (tidy.mem_behind split mem) (later y mem)
  dsimp only
  obtain ⟨q, _, rfl, next, _⟩ | ⟨rfl, _⟩ := tidy.next_eq split
  · rw [next] at gap
    cases mem with
    | head => omega
    | tail _ mem =>
      -- Behind the next free block there is more room still.
      have first := tidy.ends' (tidy.mem_behind split (.head _))
        (later q (.head _))
      have behind := (List.pairwise_cons.mp (List.pairwise_cons.mp
        (List.pairwise_append.mp order).2.1).2).1 y mem
      omega
  · cases mem

/-- `joinNext` for a block that is not free yet. -/
theorem joinNext_spec
    (split : base :: xs = front ++ p :: back) (below : p < bp) (later : ∀ y ∈ back, bp < y) :
    wp (joinNext bp p) (fun _ h' => (∃ back', Pending base h' xs front back' others bp p ∧
      back'.length ≤ back.length) ∧
      h.size bp ≤ h'.size bp ∧ Keeps others h h') Never h := by
  have above : base < bp := tidy.base_lt (List.mem_append_right _ (.head _))
  have distinct := (List.nodup_append.mp tidy.blocks.nodup).2.1
  have mapped := tidy.blocks.mapped (List.mem_append_right _ (.head _))
  unfold joinNext
  simp only [wp_bind, wp_get]
  split
  · rename_i adjacent
    obtain ⟨_, back', rfl, next, _⟩ | ⟨_, next⟩ := tidy.next_eq split
    · rw [next] at adjacent ⊢
      have pending := tidy.pending_join split below adjacent
      have mapped' := tidy.mapped (mem_of_split split (.tail p (.head _)))
      simp only [wp_bind]
      refine access_spec (.inl mapped') (setSize_spec (.inl mapped) (setPtr_spec (.inl mapped)
        ⟨⟨back', pending, Nat.le_succ _⟩, ?_, ?_, rfl, rfl⟩))
      · obtain ⟨_, list⟩ := exists_list split back'
        dsimp only
        rw [update_self, (tidy.blocks_next split list).size_add adjacent]
        exact Nat.le_add_right ..
      · intro x mem
        apply update_of_ne
        rintro rfl
        exact (List.nodup_cons.mp distinct).1 mem
    · dsimp only [header] at adjacent
      omega
  · rename_i gap
    exact setPtr_spec (.inl mapped) ⟨⟨back, tidy.pending_link split below later gap,
      Nat.le_refl _⟩, Nat.le_refl _, fun _ _ => rfl, rfl, rfl⟩

end

theorem Pending.fresh (pending : Pending base h xs front back others bp p) :
    p ∉ front ∧ p ∉ back := by
  obtain ⟨_, behind, across⟩ := List.pairwise_append.mp pending.order
  constructor
  · intro mem
    have apart := across p mem p (.head _)
    omega
  · intro mem
    have apart := List.rel_of_pairwise_cons behind mem
    omega

theorem Pending.mapped (pending : Pending base h xs front back others bp p) :
    h.mapped p = true := by
  obtain ⟨ys, list, blocks⟩ := pending.list
  have lt : p ∈ base :: ys := by simp [list]
  cases lt with
  | head => exact mapped_of_le pending.above
  | tail _ lt => exact blocks.mapped (.tail bp (List.mem_append_left _ lt))

/-- The links after the free block before it has been linked to what comes behind. -/
theorem Pending.relink {ys : List Nat} {ptr : Nat → Nat}
    (pending : Pending base h xs front back others bp p) (same : ∀ x, x ≠ p → ptr x = h.ptr x)
    (behind : CircularList.Path ptr p ys base) :
    ∃ xs', base :: xs' = front ++ p :: ys ∧ CircularList.Path ptr base xs' base := by
  obtain ⟨_, linked⟩ := pending.linked
  apply pending.ring.replace linked _ behind
  intro x mem
  apply same
  rintro rfl
  exact pending.fresh.1 mem

/-- The block is joined with the free block before it. -/
theorem Pending.join_prev (pending : Pending base h xs front back others bp p)
    (adjacent : p + header * h.size p = bp) :
    ∃ ys, base :: ys = front ++ p :: back ∧ p ∈ ys ∧ h.size bp ≤ (h.size p + h.size bp) % 2 ^ 32 ∧
      (∀ x ∈ others, x ≠ p) ∧
      Tidy base { h with
        size := update h.size p ((h.size p + h.size bp) % 2 ^ 32),
        ptr := update h.ptr p (h.ptr bp), freep := p } ys others := by
  obtain ⟨ys, list, blocks⟩ := pending.list
  have below := pending.below
  have notBase : base ≠ p := by
    rintro rfl
    rw [pending.sentinel] at adjacent
    omega
  have lt : p ∈ ys := by
    have mem : p ∈ base :: ys := mem_of_split list (.head _)
    cases mem with
    | head => exact absurd rfl notBase
    | tail _ lt => exact lt
  obtain ⟨rest, perm⟩ : ∃ rest, ys.Perm (p :: rest) := ⟨_, List.perm_cons_erase lt⟩
  have both : Blocks base h (p :: bp :: (rest ++ others)) :=
    blocks.perm (((perm.append_right others).cons bp).trans (.swap p bp _))
  have grown := both.size_add adjacent
  have behind : CircularList.Path (update h.ptr p (h.ptr bp)) p back base := by
    apply pending.behind.congr (update_self ..)
    intro x mem
    apply update_of_ne
    rintro rfl
    exact pending.fresh.2 mem
  obtain ⟨ys', list', ring⟩ := pending.relink (fun x other => update_of_ne other _ _) behind
  obtain rfl : ys' = ys := (List.cons.inj (list'.trans list.symm)).2
  have out : ∀ x ∈ others, x ≠ p := by
    rintro x mem rfl
    exact (List.nodup_cons.mp both.nodup).1
      (.tail bp (List.mem_append_right _ mem))
  refine ⟨ys', list, lt, by omega, out, ⟨ring, ?_, ?_⟩, ?_, ?_, pending.above⟩
  · exact .tail base lt
  · obtain ⟨first, second, across⟩ := List.pairwise_append.mp pending.order
    obtain ⟨_, last⟩ := List.pairwise_cons.mp second
    rw [list, List.pairwise_append, List.pairwise_cons]
    have others' : ∀ x, x ≠ p → update h.size p ((h.size p + h.size bp) % 2 ^ 32) x = h.size x :=
      fun x other => update_of_ne other _ _
    refine ⟨?_, ⟨?_, ?_⟩, ?_⟩
    · apply first.imp_of_mem
      intro x y mem _ apart
      dsimp only
      rwa [others' x (ne_of_mem_of_not_mem mem pending.fresh.1)]
    · intro y mem
      have next := pending.next y mem
      dsimp only
      rw [update_self, grown]
      dsimp only [header] at *
      omega
    · apply last.imp_of_mem
      intro x y mem _ apart
      dsimp only
      rwa [others' x (ne_of_mem_of_not_mem mem pending.fresh.2)]
    · intro x mem y member'
      dsimp only
      rw [others' x (ne_of_mem_of_not_mem mem pending.fresh.1)]
      exact across x mem y member'
  · dsimp only
    rw [update_of_ne notBase]
    exact pending.sentinel
  · exact (both.join adjacent).perm (perm.symm.append_right others)

/-- The block is linked in behind the free block before it. -/
theorem Pending.link_prev (pending : Pending base h xs front back others bp p)
    (gap : p + header * h.size p ≠ bp) :
    ∃ ys, base :: ys = front ++ p :: bp :: back ∧
      Tidy base { h with ptr := update h.ptr p bp, freep := p } ys others := by
  obtain ⟨ys, list, blocks⟩ := pending.list
  have below := pending.below
  have ends := pending.prev
  have behind : CircularList.Path (update h.ptr p bp) p (bp :: back) base := by
    refine ⟨update_self .., pending.behind.congr ?_ ?_⟩
    · exact update_of_ne (Nat.ne_of_gt below) _ _
    · intro x mem
      apply update_of_ne
      rintro rfl
      exact pending.fresh.2 mem
  obtain ⟨ys', list', ring⟩ := pending.relink (fun x other => update_of_ne other _ _) behind
  have perm : ys'.Perm (bp :: ys) := by
    apply List.Perm.cons_inv
    rw [list']
    refine List.Perm.trans ?_ (.swap base bp ys)
    rw [list, ← List.singleton_append, ← List.append_assoc]
    refine List.perm_middle.trans ?_
    rw [List.append_assoc, List.singleton_append]
  refine ⟨ys', list', ⟨ring, ?_, ?_⟩, pending.sentinel, ?_, pending.above⟩
  · exact mem_of_split list' (.head _)
  · obtain ⟨first, second, across⟩ := List.pairwise_append.mp pending.order
    obtain ⟨next, last⟩ := List.pairwise_cons.mp second
    rw [list', List.pairwise_append, List.pairwise_cons, List.pairwise_cons]
    refine ⟨first, ⟨?_, pending.next, last⟩, ?_⟩
    · intro y mem
      cases mem with
      | head => exact Nat.lt_of_le_of_ne ends gap
      | tail _ mem => exact next y mem
    intro x mem y member'
    rw [List.mem_cons, List.mem_cons] at member'
    obtain rfl | rfl | inBack := member'
    · exact across x mem y (.head _)
    · exact Nat.lt_trans (across x mem p (.head _)) below
    · exact across x mem y (.tail p inBack)
  · exact (blocks.perm (perm.symm.append_right others)).congr rfl rfl rfl

/-- `joinPrev` makes the block free. -/
theorem joinPrev_spec (pending : Pending base h xs front back others bp p) :
    wp (joinPrev bp p) (fun _ h' => (∃ ys, Tidy base h' ys others ∧
      ys.length ≤ front.length + back.length + 1 ∧ ∃ x ∈ ys, h.size bp ≤ h'.size x) ∧
      Keeps others h h') Never h := by
  have mapped := pending.mapped
  unfold joinPrev
  simp only [wp_bind, wp_get]
  split
  · rename_i adjacent
    obtain ⟨ys, list, lt, grown, out, tidy⟩ := pending.join_prev adjacent
    have size := congrArg List.length list
    rw [List.length_cons, List.length_append, List.length_cons] at size
    simp only [wp_bind]
    refine setSize_spec (.inl mapped) (setPtr_spec (.inl mapped)
      ⟨⟨ys, tidy, by omega, p, lt, ?_⟩, ?_, rfl, rfl⟩)
    · dsimp only
      rw [update_self]
      exact grown
    · exact fun x mem => update_of_ne (out x mem) _ _
  rename_i gap
  obtain ⟨ys, list, tidy⟩ := pending.link_prev gap
  have size := congrArg List.length list
  rw [List.length_cons, List.length_append, List.length_cons, List.length_cons] at size
  simp only [wp_bind]
  refine setPtr_spec (.inl mapped)
    ⟨⟨ys, tidy, by omega, bp, ?_, Nat.le_refl _⟩, fun _ _ => rfl, rfl, rfl⟩
  exact tidy.mem_behind list (.head _)

theorem Keeps.trans {h₁ h₂ : Heap} (first : Keeps others h h₁) (second : Keeps others h₁ h₂) :
    Keeps others h h₂ :=
  ⟨fun x mem => (second.sizes x mem).trans (first.sizes x mem),
    second.brk.trans first.brk, second.regions.trans first.regions⟩

/-- `free` makes a block free; its loop ends within one round for each free block. -/
theorem free_spec (tidy : Tidy base h xs (bp :: others)) (short : fuel < xs.length + 1 → F) :
    wp (free fuel (bp + header)) (fun _ h' => (∃ ys, Tidy base h' ys others ∧
      ys.length ≤ xs.length + 1 ∧ ∃ x ∈ ys, h.size bp ≤ h'.size x) ∧ Keeps others h h')
      (fun _ => F) h := by
  have above : base < bp := tidy.base_lt (List.mem_append_right _ (.head _))
  obtain ⟨p, mem, below, greatest⟩ := exists_prev above
  have stops : ∀ x ∈ base :: xs, (h.stops bp x = true ↔ x = p) := by
    intro x lt
    rw [Heap.stops, tidy.mapped lt, Bool.not_true, Bool.false_or]
    exact tidy.between_iff (.head _) mem below greatest lt
  rw [free, Nat.add_sub_cancel, wp_bind, wp_get]
  cases walked : CircularList.walk h.ptr (h.stops bp) fuel h.freep with
  | none =>
    -- With enough rounds the loop would have come to `p`.
    apply short
    by_contra enough
    have found := tidy.ring.walk (h.stops bp) tidy.nodup tidy.cursor mem
      ((stops p mem).mpr rfl)
      (fun x lt other => Bool.eq_false_iff.mpr fun here => other ((stops x lt).mp here))
      (Nat.le_of_not_lt enough)
    rw [walked] at found
    cases found
  | some q =>
    obtain ⟨lt, here⟩ := tidy.ring.walk_some tidy.cursor walked
    obtain rfl := (stops q lt).mp here
    obtain ⟨_, back, split⟩ := List.append_of_mem mem
    have size := congrArg List.length split
    rw [List.length_cons, List.length_append, List.length_cons] at size
    have later : ∀ y ∈ back, bp < y := by
      intro y behind
      have lt := mem_of_split split (.tail q behind)
      have order := tidy.lt
      rw [split, List.pairwise_append] at order
      have after := List.rel_of_pairwise_cons order.2.1 behind
      have notSame : y ≠ bp := fun same =>
        tidy.not_free (.head _) (same ▸ lt)
      by_contra notLater
      have pre := greatest y lt (by omega)
      omega
    simp only [wp_bind]
    apply access_spec (.inl (tidy.mapped mem))
    apply wp_never (joinNext_spec tidy split below later)
    rintro _ _ ⟨⟨_, pending, _⟩, grown, kept⟩
    apply wp_never (joinPrev_spec pending)
    rintro _ _ ⟨⟨ys, tidy', _, x, free, large⟩, kept'⟩
    exact ⟨⟨ys, tidy', by omega, x, free, Nat.le_trans grown large⟩, kept.trans kept'⟩

section

variable (tidy : Tidy base h xs others)
include tidy

/-- New memory at or above the break is a block in use. -/
theorem Tidy.grow {hp : Nat} (fresh : h.brk ≤ hp) (some : 0 < n) (room : hp + header * n ≤ 2 ^ 36) :
    Tidy base { h with
      size := update h.size hp n, brk := hp + header * n,
      regions := h.regions ++ [⟨hp, hp + header * n⟩] } xs (hp :: others) := by
  have below : ∀ x ∈ xs ++ others, x ≠ hp := by
    intro x mem
    have within := tidy.blocks.within mem
    have nonempty := tidy.blocks.nonempty x mem
    dsimp only [header] at within
    omega
  have baseBelow : base < hp := by
    have := tidy.above
    dsimp only [header] at this
    omega
  have same : ∀ x ∈ base :: xs, update h.size hp n x = h.size x := by
    intro x mem
    apply update_of_ne
    cases mem with
    | head => exact Nat.ne_of_lt baseBelow
    | tail _ mem => exact below x (List.mem_append_left _ mem)
  have obtained : ∀ addr, (Heap.Obtained { h with
      size := update h.size hp n, brk := hp + header * n,
      regions := h.regions ++ [⟨hp, hp + header * n⟩] } addr) ↔
      h.Obtained addr ∨ hp ≤ addr ∧ addr < hp + header * n := by
    intro addr
    simp only [Heap.Obtained, List.mem_append, List.mem_singleton, or_and_right, exists_or,
      exists_eq_left]
  refine ⟨⟨tidy.ring, tidy.cursor, ?_⟩, ?_, ⟨?_, ?_, ?_, ?_⟩, ?_⟩
  · apply tidy.order.imp_of_mem
    intro x y mem _ _
    dsimp only
    rwa [same x mem]
  · dsimp only
    rw [same base List.mem_cons_self]
    exact tidy.sentinel
  · intro x mem
    dsimp only
    rw [List.mem_append, List.mem_cons] at mem
    by_cases new : x = hp
    · rw [new, update_self]
      exact some
    rw [update_of_ne new]
    apply tidy.blocks.nonempty
    rw [List.mem_append]
    exact mem.imp_right fun inOthers => inOthers.resolve_left new
  · intro addr
    have old := tidy.blocks.exact addr
    have bound := tidy.blocks.bounds addr
    dsimp only
    rw [Tiling.cover_perm List.perm_middle, Tiling.cover_cons, update_self,
      Tiling.cover_update n fun mem => below hp mem rfl, old]
    simp only [obtained]
    by_cases pre : h.Obtained addr
    · have := bound pre
      rw [if_pos pre, if_neg (by omega), if_pos (.inl pre)]
    · simp only [pre, false_or, if_false, Nat.zero_add]
  · intro addr covered
    have low := tidy.above
    rcases (obtained addr).mp covered with pre | _
    · have := tidy.blocks.bounds addr pre
      dsimp only
      omega
    · dsimp only
      omega
  · intro addr covered
    rcases (obtained addr).mp covered with pre | _
    · exact tidy.blocks.room addr pre
    · omega
  · have low := tidy.above
    dsimp only [header] at *
    omega

/-- A block is taken out of the free list. -/
theorem Tidy.remove (mem : q ∈ base :: xs) (ne : 0 < h.size (h.ptr q)) :
    ∃ ys, Tidy base { h with ptr := update h.ptr q (h.ptr (h.ptr q)), freep := q } ys
      (h.ptr q :: others) := by
  obtain ⟨front, _, split⟩ := List.append_of_mem mem
  obtain ⟨p, back', rfl, next, _⟩ | ⟨_, next⟩ := tidy.next_eq split
  · rw [next]
    have path := tidy.ring.drop split
    have fewer : (front ++ q :: back').Sublist (base :: xs) := by
      rw [split]
      exact ((List.sublist_cons_self p back').cons_cons q).append_left front
    have distinct := fewer.nodup tidy.nodup
    rw [List.nodup_append] at distinct
    obtain ⟨_, second, across⟩ := distinct
    have behind : CircularList.Path (update h.ptr q (h.ptr p)) q back' base := by
      apply path.2.congr (update_self ..)
      intro x lt
      apply update_of_ne
      rintro rfl
      exact (List.nodup_cons.mp second).1 lt
    obtain ⟨ys, list, ring⟩ := tidy.ring.replace split
      (fun x lt => update_of_ne (across x lt q (.head _)) _ _) behind
    refine ⟨ys, ⟨ring, ?_, ?_⟩, tidy.sentinel, ?_, tidy.above⟩
    · exact mem_of_split list (.head _)
    · rw [list]
      exact tidy.order.sublist fewer
    refine (tidy.blocks.perm ?_).congr rfl rfl rfl
    have moved : xs.Perm (p :: ys) := by
      apply List.Perm.cons_inv
      rw [split]
      refine List.Perm.trans ?_ (.swap base p ys)
      rw [list, ← List.singleton_append, ← List.append_assoc]
      refine List.perm_middle.trans ?_
      rw [List.append_assoc, List.singleton_append]
    exact (moved.append_right others).trans List.perm_middle.symm
  · rw [next, tidy.sentinel] at ne
    exact absurd ne (Nat.lt_irrefl 0)

/-- The tail of a free block is taken. -/
theorem Tidy.shrink (mem : q ∈ base :: xs) (lt : p ∈ xs) (some : 0 < n) (less : n < h.size p) :
    p + header * (h.size p - n) ∉ others ∧
    Tidy base { h with
      size := update (update h.size p (h.size p - n)) (p + header * (h.size p - n)) n,
      freep := q } xs ((p + header * (h.size p - n)) :: others) := by
  obtain ⟨rest, perm⟩ : ∃ rest, xs.Perm (p :: rest) := ⟨_, List.perm_cons_erase lt⟩
  obtain ⟨fresh, blocks⟩ := @Blocks.split base h (rest ++ others) p n
    (tidy.blocks.perm (perm.append_right others)) some less h.ptr q
  generalize tailEq : p + header * (h.size p - n) = tail at *
  have out : ∀ x ∈ xs ++ others, x ≠ tail := by
    rintro x inHeads rfl
    exact fresh ((perm.append_right others).mem_iff.mp inHeads)
  have baseBelow : base ≠ tail := by
    have := tidy.base_lt (List.mem_append_left others lt)
    omega
  refine ⟨fun absurd => out tail (List.mem_append_right _ absurd) rfl,
    ⟨tidy.ring, mem, ?_⟩, ?_, ?_, tidy.above⟩
  · apply tidy.order.imp_of_mem
    intro x y inList _ apart
    have notTail : x ≠ tail := by
      cases inList with
      | head => exact baseBelow
      | tail _ inXs => exact out x (List.mem_append_left _ inXs)
    dsimp only
    rw [update_of_ne notTail]
    by_cases same : x = p
    · subst same
      rw [update_self]
      dsimp only [header] at *
      omega
    · rwa [update_of_ne same]
  · have notFree : base ≠ p := Nat.ne_of_lt (tidy.base_lt (List.mem_append_left others lt))
    dsimp only
    rw [update_of_ne baseBelow, update_of_ne notFree]
    exact tidy.sentinel
  · apply blocks.perm
    exact (List.Perm.swap _ _ _).trans
      (((perm.symm.append_right others).cons tail).trans List.perm_middle.symm)

/-- The sizes fit a `uint`. -/
theorem Tidy.size_lt (mem : x ∈ xs) : h.size x < 2 ^ 32 := by
  have within := tidy.blocks.within (List.mem_append_left others mem)
  dsimp only [header] at within
  omega

end

/-- A new block in use, and the others as they were. -/
structure Taken (base : Nat) (others : List Nat) (n : Nat) (h : Heap) (r : Nat) (h' : Heap) :
    Prop where
  block : ∃ b ys, r = b + header ∧ Tidy base h' ys (b :: others) ∧ h'.size b = n
  sizes : ∀ x ∈ others, h'.size x = h.size x

/-- `malloc` at a free block that is large enough. -/
theorem take_spec (tidy : Tidy base h xs others) (mem : q ∈ base :: xs) (some : 0 < n)
    (enough : n ≤ h.size (h.ptr q)) :
    wp (take n q (h.ptr q)) (Taken base others n h) Never h := by
  have lt : h.ptr q ∈ xs := by
    have among := tidy.ring.next_mem_of_mem mem
    rw [List.mem_cons] at among
    apply among.resolve_left
    intro next
    rw [next, tidy.sentinel] at enough
    omega
  have small := tidy.size_lt lt
  unfold take
  simp only [wp_bind, wp_get]
  split
  · rename_i exact_
    obtain ⟨ys, tidy'⟩ := tidy.remove mem (by omega)
    simp only [wp_bind]
    exact setPtr_spec (.inl (tidy.mapped mem))
      ⟨⟨h.ptr q, ys, rfl, tidy', exact_⟩, fun _ _ => rfl⟩
  rename_i larger
  have less : n < h.size (h.ptr q) := Nat.lt_of_le_of_ne enough (Ne.symm larger)
  obtain ⟨fresh, tidy'⟩ := tidy.shrink mem lt some less
  have rest : (h.size (h.ptr q) - n) % 2 ^ 32 = h.size (h.ptr q) - n := Nat.mod_eq_of_lt (by omega)
  have whole : n % 2 ^ 32 = n := Nat.mod_eq_of_lt (by omega)
  have mapped' := tidy'.blocks.mapped (List.mem_append_right xs (.head _))
  simp only [wp_bind]
  refine setSize_spec (.inl (tidy.mapped (.tail base lt))) (setSize_spec (.inl mapped') ?_)
  rw [rest, whole]
  refine ⟨⟨_, xs, rfl, tidy', update_self ..⟩, ?_⟩
  intro x mem
  have notTail : x ≠ h.ptr q + header * (h.size (h.ptr q) - n) := by
    rintro rfl
    exact fresh mem
  have notFree : x ≠ h.ptr q := by
    rintro rfl
    exact tidy.not_free mem (.tail base lt)
  dsimp only
  rw [update_of_ne notTail, update_of_ne notFree]

/-- What the kernel hands out fits below `2 ^ 36`. -/
def Roomy (h : Heap) (answer : Option Nat) : Prop := ∀ gap ∈ answer, h.brk + gap + 2 ^ 31 ≤ 2 ^ 36

theorem toInt_eq_iff : toInt n = n ↔ n < 2 ^ 31 := by
  change Int.bmod n 4294967296 = n ↔ _
  rw [Int.bmod_def]
  split <;> omega

/-- `sbrk` for a byte count that is an `int`. -/
theorem sbrk_spec {bytes gap : Nat} {post : Option Nat → Heap → Prop} {fail : Stop → Prop}
    (pos : 0 < bytes) (small : bytes < 2 ^ 31) (holds : post (some (h.brk + gap)) { h with
      brk := h.brk + gap + bytes,
      regions := h.regions ++ [⟨h.brk + gap, h.brk + gap + bytes⟩] }) :
    wp (sbrk (some gap) (toInt bytes)) post fail h := by
  have up : (0 : Int) < bytes := by omega
  have above : ¬ ((h.brk + gap : Nat) + (bytes : Int) < 0) := by omega
  have new : ((h.brk + gap : Nat) + (bytes : Int)).toNat = h.brk + gap + bytes := by omega
  simp only [sbrk, wp_bind, wp_get, wp_set, wp_pure, toInt_eq_iff.mpr small, if_pos up, if_neg above, new]
  exact holds

/-- `morecore` makes a free block that is large enough, unless the kernel refuses. -/
theorem morecore_spec (nonzero : 0 < base) (tidy : Tidy base h xs others)
    (small : answer = none ∨ header * n < 2 ^ 31) (roomy : Roomy h answer)
    (short : fuel < xs.length + 1 → F) :
    wp (morecore fuel answer n) (fun p h' => (p = 0 ∧ h' = h) ∨
      (p ≠ 0 ∧ p = h'.freep ∧ (∃ ys, Tidy base h' ys others ∧ ys.length ≤ xs.length + 1 ∧
        ∃ x ∈ ys, n ≤ h'.size x) ∧ ∀ x ∈ others, h'.size x = h.size x)) (fun _ => F) h := by
  unfold morecore
  cases answer with
  | none => exact .inl ⟨rfl, rfl⟩
  | some gap =>
    have few := small.resolve_left (by simp)
    have room := roomy gap rfl
    generalize amount : (if n < 4096 then 4096 else n) = nu
    have atLeast : n ≤ nu ∧ 0 < nu ∧ nu * header < 2 ^ 31 := by
      dsimp only [header] at *
      split at amount <;> omega
    have fits : nu % 2 ^ 32 = nu := Nat.mod_eq_of_lt (by dsimp only [header] at *; omega)
    have grown := tidy.grow (Nat.le_add_right h.brk gap) atLeast.2.1
      (by dsimp only [header] at *; omega)
    rw [Nat.mul_comm header] at grown
    simp only [wp_bind]
    apply sbrk_spec (Nat.mul_pos atLeast.2.1 (by decide)) atLeast.2.2
    simp only [wp_bind]
    refine setSize_spec (.inl (grown.blocks.mapped (List.mem_append_right xs (.head _)))) ?_
    rw [fits]
    apply wp_imp (free_spec grown short)
    rintro _ _ ⟨⟨ys, tidy', fewer, x, free, large⟩, kept⟩
    refine .inr ⟨?_, rfl, ⟨ys, tidy', fewer, x, free, ?_⟩, ?_⟩
    · have := tidy'.base_le tidy'.cursor
      omega
    · refine Nat.le_trans ?_ large
      dsimp only
      rw [update_self]
      exact atLeast.1
    intro x mem
    rw [kept.sizes x mem]
    apply update_of_ne
    rintro rfl
    exact (List.nodup_cons.mp (List.nodup_append.mp grown.blocks.nodup).2.1).1 mem

/-- What the loop of `malloc` does when it has come around. -/
def refill (answer : Option Nat) (n fuel : Nat) : HeapM Nat := do
  let p ← morecore fuel answer n
  if p = 0 then
    return 0
  else
    let s ← get
    mallocLoop answer n fuel p (s.ptr p)

variable {post : Nat → Heap → Prop}

/-- The loop of `malloc` stops at the first block that is large enough, or comes around. -/
theorem mallocLoop_walk (list : List Nat) :
    ∀ {prevp fuel : Nat}, CircularList.Path h.ptr prevp list h.freep → h.freep ∉ list →
    (∀ x ∈ list ++ [h.freep], h.mapped x = true ∨ F) → (fuel ≤ list.length → F) →
    (∀ q ∈ prevp :: list, n ≤ h.size (h.ptr q) → wp (take n q (h.ptr q)) post (fun _ => F) h) →
    (∀ less, fuel = less + list.length + 1 → (∀ x ∈ list ++ [h.freep], h.size x < n) →
      wp (refill answer n less) post (fun _ => F) h) →
    wp (mallocLoop answer n fuel prevp (h.ptr prevp)) post (fun _ => F) h := by
  induction list with
  | nil =>
    intro prevp fuel path _ mapped short found around
    cases fuel with
    | zero => exact short (Nat.le_refl 0)
    | succ fuel =>
      have first : h.ptr prevp = h.freep := path
      rw [mallocLoop, wp_bind]
      refine access_spec (first ▸ mapped _ (.head _)) ?_
      rw [wp_bind, wp_get]
      split
      · rename_i enough
        exact found prevp (.head _) enough
      rename_i tooSmall
      refine around fuel rfl ?_
      intro x mem
      obtain rfl := List.mem_singleton.mp mem
      rw [← first]
      exact Nat.lt_of_not_le tooSmall
  | cons p _ ih =>
    intro prevp fuel path fresh mapped short found around
    obtain ⟨first, rest⟩ := path
    cases fuel with
    | zero => exact short (Nat.zero_le _)
    | succ _ =>
      rw [mallocLoop, wp_bind]
      refine access_spec (first ▸ mapped _ (.head _)) ?_
      rw [wp_bind, wp_get]
      split
      · rename_i enough
        exact found prevp (.head _) enough
      rename_i tooSmall
      rw [first] at tooSmall ⊢
      have other : p ≠ h.freep := by
        rintro rfl
        exact fresh (.head _)
      rw [if_neg other]
      apply ih rest fun lt => fresh (.tail p lt)
      · exact fun x mem => mapped x (.tail p mem)
      · exact fun less => short (Nat.succ_le_succ less)
      · exact fun q mem => found q (.tail prevp mem)
      intro less _ small
      refine around less (by rw [List.length_cons]; omega) ?_
      intro x mem
      cases mem with
      | head => exact Nat.lt_of_not_le tooSmall
      | tail _ mem => exact small x mem

/-- The loop of `malloc` from `freep` on. -/
theorem Tidy.mallocLoop (tidy : Tidy base h xs others) (some : 0 < n) (short : fuel ≤ xs.length → F)
    (found : ∀ x ∈ base :: xs, n ≤ h.size x → ∀ r h', Taken base others n h r h' → post r h')
    (around : ∀ less, fuel = less + xs.length + 1 → (∀ x ∈ xs, h.size x < n) →
      wp (refill answer n less) post (fun _ => F) h) :
    wp (mallocLoop answer n fuel h.freep (h.ptr h.freep)) post (fun _ => F) h := by
  obtain ⟨list, path, perm⟩ := tidy.ring.rotate_to tidy.cursor
  have size := perm.length_eq
  rw [List.length_cons, List.length_cons] at size
  have distinct := perm.nodup_iff.mpr tidy.nodup
  apply mallocLoop_walk list path (List.nodup_cons.mp distinct).1
  · exact fun x mem => .inl (tidy.mapped (perm.mem_iff.mp (by simpa [or_comm] using mem)))
  · exact fun less => short (by omega)
  · intro q mem enough
    have lt := perm.mem_iff.mp mem
    exact wp_never (take_spec tidy lt some enough)
      (found _ (tidy.ring.next_mem_of_mem lt) enough)
  intro less _ small
  refine around less (by omega) ?_
  intro x mem
  apply small
  rw [List.mem_append, List.mem_singleton]
  exact (List.mem_cons.mp (perm.mem_iff.mpr (.tail base mem))).symm

/-- What `malloc` returns: NULL, or a new block. -/
def Malloced (base : Nat) (others : List Nat) (n : Nat) (h : Heap) (r : Nat) (h' : Heap) : Prop :=
  (r = 0 ∧ (∃ ys, Tidy base h' ys others) ∧ ∀ x ∈ others, h'.size x = h.size x) ∨
    Taken base others n h r h'

/-- The loop of `malloc` ends within two rounds for each free block. -/
theorem mallocLoop_spec (nonzero : 0 < base) (tidy : Tidy base h xs others) (some : 0 < n)
    (small : answer = none ∨ header * n < 2 ^ 31) (roomy : Roomy h answer) :
    wp (Malloc.mallocLoop answer n fuel h.freep (h.ptr h.freep)) (Malloced base others n h)
      (fun _ => fuel < 2 * xs.length + 4) h := by
  apply tidy.mallocLoop some (by omega) fun _ _ _ _ _ => .inr
  intro _ _ _
  apply wp_seq (morecore_spec nonzero tidy small roomy (by omega))
  rintro p _ (⟨rfl, rfl⟩ | ⟨notNull, rfl, ⟨_, tidy', _, x, free, large⟩, same⟩)
  · exact .inl ⟨rfl, ⟨xs, tidy⟩, fun _ _ => rfl⟩
  rw [if_neg notNull, wp_bind, wp_get]
  apply tidy'.mallocLoop some (by omega)
  · intro _ _ _ r _ taken
    exact .inr ⟨taken.block, fun y mem => (taken.sizes y mem).trans (same y mem)⟩
  -- The new block is large enough, so the loop does not come around again.
  intro _ _ allSmall
  exact absurd (allSmall x free) (Nat.not_lt.mpr large)

theorem units_pos (nbytes : UInt32) : 0 < units nbytes ∧ nbytes.toNat ≤
    header * (units nbytes - 1) := by
  have bound := nbytes.toNat_lt
  unfold units
  dsimp only [header]
  omega

/-- Before the first call there is no memory. -/
structure Untouched (base : Nat) (h : Heap) : Prop where
  null : h.freep = 0
  nothing : h.regions = []
  above : base + header ≤ h.brk

/-- The first call of `malloc` makes a free list of the static header alone. -/
theorem Untouched.tidy (untouched : Untouched base h) :
    Tidy base { h with
      ptr := update h.ptr base base, freep := base,
      size := update h.size base (0 % 2 ^ 32) } [] [] := by
  have none : ∀ addr, ¬ Heap.Obtained { h with
      ptr := update h.ptr base base, freep := base,
      size := update h.size base (0 % 2 ^ 32) } addr := by
    rintro addr ⟨_, mem, _⟩
    rw [untouched.nothing] at mem
    cases mem
  refine ⟨⟨update_self .., .head _, List.pairwise_singleton ..⟩,
    update_self .., ⟨?_, ?_, ?_, ?_⟩, untouched.above⟩
  · exact nofun
  · intro addr
    rw [if_neg (none addr)]
    rfl
  · exact fun addr obtained => absurd obtained (none addr)
  · exact fun addr obtained => absurd obtained (none addr)

/-- `malloc` comes to its loop with a tidy heap, after the first call or in it. -/
theorem malloc_cases (nonzero : 0 < base)
    (ready : (∃ xs, Tidy base h xs others) ∨ (Untouched base h ∧ others = [])) :
    ∃ h' xs, Tidy base h' xs others ∧ h'.brk = h.brk ∧ (∀ x ∈ others, h'.size x = h.size x) ∧
      ∀ {fuel answer nbytes} {post : Nat → Heap → Prop} {fail : Stop → Prop},
        wp (mallocLoop answer (units nbytes) fuel h'.freep (h'.ptr h'.freep)) post fail h' →
        wp (malloc base fuel answer nbytes) post fail h := by
  obtain ⟨xs, tidy⟩ | ⟨untouched, rfl⟩ := ready
  · have notNull : h.freep ≠ 0 := by
      have := tidy.base_le tidy.cursor
      omega
    refine ⟨h, xs, tidy, rfl, fun _ _ => rfl, fun loop => ?_⟩
    rw [malloc, wp_bind, wp_get, if_neg notNull, wp_bind, wp_get, wp_bind]
    exact access_spec (.inl (tidy.mapped tidy.cursor)) loop
  have mapped := mapped_of_le untouched.above
  refine ⟨_, [], untouched.tidy, rfl, by simp, fun loop => ?_⟩
  rw [malloc, wp_bind, wp_get, if_pos untouched.null]
  simp only [wp_bind]
  exact setPtr_spec (.inl mapped) (setSize_spec (.inl mapped) (access_spec (.inl mapped) loop))

theorem malloc_spec (nonzero : 0 < base)
    (ready : (∃ xs, Tidy base h xs others) ∨ (Untouched base h ∧ others = []))
    (small : answer = none ∨ nbytes.toNat < 2 ^ 31 - 31) (roomy : Roomy h answer) :
    ∃ bound, ∀ fuel, wp (malloc base fuel answer nbytes)
      (Malloced base others (units nbytes) h) (fun _ => fuel < bound) h := by
  have few : nbytes.toNat < 2 ^ 31 - 31 → header * units nbytes < 2 ^ 31 := by
    unfold units
    dsimp only [header]
    omega
  have some := (units_pos nbytes).1
  obtain ⟨h', xs, tidy, brk, sizes, loop⟩ := malloc_cases nonzero ready
  rw [Roomy, ← brk] at roomy
  refine ⟨2 * xs.length + 4, fun fuel => loop ?_⟩
  apply wp_imp (mallocLoop_spec nonzero tidy some (small.imp_right few) roomy)
  rintro r _ (⟨null, tidy, same⟩ | ⟨block, same⟩)
  · exact .inl ⟨null, tidy, fun x mem => (same x mem).trans (sizes x mem)⟩
  · exact .inr ⟨block, fun x mem => (same x mem).trans (sizes x mem)⟩

/-! ### Requests whose byte count is no `int` -/

section Wrapped

variable {hp gap : Nat} {h₂ : Heap}

/-- `sbrk` is asked for one header at most. -/
theorem sbrk_wrapped {bytes : Nat} {post : Option Nat → Heap → Prop} {fail : Stop → Prop}
    (large : 2 ^ 31 ≤ bytes) (bound : bytes ≤ 2 ^ 32 + header)
    (holds : ∀ brk regions, brk ≤ h.brk + gap + header →
      post (some (h.brk + gap)) { h with brk := brk, regions := regions }) :
    wp (sbrk (some gap) (toInt bytes)) post fail h := by
  dsimp only [header] at bound holds
  have few : toInt bytes ≤ 16 := by
    change Int.bmod bytes 4294967296 ≤ 16
    rw [Int.bmod_def]
    split <;> omega
  simp only [sbrk, wp_bind, wp_get, wp_set, wp_pure]
  apply holds
  split <;> omega

/-- A block of `n` units at `hp` has come to the end of the free list, behind its last block
`q` or as a part of it. -/
def Appended (base : Nat) (h : Heap) (xs : List Nat) (hp n q : Nat) (h' : Heap) : Prop :=
  (h'.ptr q = hp ∧ h'.size hp = n) ∨
  (q ∈ xs ∧ q + header * h.size q = hp ∧ h'.size q = h.size q + n ∧
    ∀ x ∈ base :: xs, h'.ptr x = h.ptr x ∧ (x ≠ q → h'.size x = h.size x))

/-- `free` for a header at or above the old break, in whatever memory is left. -/
theorem Tidy.free_wrapped (tidy : Tidy base h xs others) (fresh : h.brk ≤ hp)
    (room : hp ≤ 2 ^ 31) (bound : n ≤ 2 ^ 28 + 1) (ptr : h₂.ptr = h.ptr)
    (freep : h₂.freep = h.freep) (size : h₂.size = update h.size hp n) :
    wp (free fuel (hp + header)) (fun _ h' => h'.brk = h₂.brk ∧ h'.freep ∈ base :: xs ∧
      Appended base h xs hp n h'.freep h') (fun _ => True) h₂ := by
  have low : base + header ≤ hp := Nat.le_trans tidy.above fresh
  have below : ∀ x ∈ base :: xs, x < hp := by
    intro x mem
    cases mem with
    | head =>
      dsimp only [header] at low
      omega
    | tail _ mem =>
      have within := (tidy.blocks.within (List.mem_append_left others mem)).2.1
      have nonempty := tidy.blocks.nonempty x (List.mem_append_left others mem)
      dsimp only [header] at within
      omega
  have old : ∀ x ∈ base :: xs, h₂.size x = h.size x := fun x mem => by
    rw [size, update_of_ne (Nat.ne_of_lt (below x mem))]
  rw [free, Nat.add_sub_cancel, wp_bind, wp_get, ptr, freep]
  cases walked : CircularList.walk h.ptr (h₂.stops hp) fuel h.freep with
  | none => trivial
  | some q =>
    obtain ⟨mem, stops⟩ := tidy.ring.walk_some tidy.cursor walked
    simp only [wp_bind]
    cases mapped : h₂.mapped q with
    | false =>
      rw [access, wp_bind, wp_get, mapped]
      trivial
    | true =>
    refine access_spec (.inl mapped) ?_
    -- No block lies above the new one, so the loop has come to the last one.
    have last : h.ptr q = base := by
      obtain ⟨_, _, split⟩ := List.append_of_mem mem
      obtain ⟨y, _, rfl, next, after⟩ | ⟨_, next⟩ := tidy.next_eq split
      · have high := below y (mem_of_split split (.tail q (.head _)))
        simp [Heap.stops, mapped, Heap.between, ptr, next] at stops
        omega
      · exact next
    unfold joinNext
    rw [wp_bind, wp_get, ptr, last, if_neg (by dsimp only [header] at *; omega)]
    refine setPtr_spec (.inr trivial) ?_
    unfold joinPrev
    simp only [wp_bind, wp_get, old q mem]
    split
    · rename_i adjacent
      have lt : q ∈ xs := by
        cases mem with
        | head =>
          rw [tidy.sentinel] at adjacent
          dsimp only [header] at *
          omega
        | tail _ mem => exact mem
      have fits : (h.size q + h₂.size hp) % 2 ^ 32 = h.size q + n := by
        rw [size, update_self]
        apply Nat.mod_eq_of_lt
        dsimp only [header] at adjacent
        omega
      simp only [wp_bind]
      refine setSize_spec (.inr trivial) (setPtr_spec (.inr trivial)
        ⟨rfl, mem, .inr ⟨lt, adjacent, ?_, fun x among => ⟨?_, fun other => ?_⟩⟩⟩)
      · exact (update_self ..).trans fits
      · dsimp only
        by_cases same : x = q
        · rw [same, update_self, update_self, last]
        · rw [update_of_ne same, update_of_ne (Nat.ne_of_lt (below x among)), ptr]
      · exact (update_of_ne other _ _).trans (old x among)
    · simp only [wp_bind]
      refine setPtr_spec (.inr trivial) ⟨rfl, mem, .inl ⟨update_self .., ?_⟩⟩
      dsimp only
      rw [size, update_self]

/-- `malloc` then returns what lies behind the header, at or above the new break. -/
theorem Tidy.refill_wrapped (nonzero : 0 < base) (tidy : Tidy base h xs others)
    (none : ∀ x ∈ base :: xs, h.size x < n) (large : 2 ^ 31 ≤ n * header)
    (bound : n ≤ 2 ^ 28 + 1) (room : h.brk + gap ≤ 2 ^ 31) :
    wp (refill (some gap) n fuel) (fun ap h' => ap ≠ 0 ∧ h'.brk ≤ ap) (fun _ => True) h := by
  have amount : (if n < 4096 then 4096 else n) = n :=
    if_neg (by dsimp only [header] at large; omega)
  rw [refill, morecore, amount]
  simp only [wp_bind]
  apply sbrk_wrapped large (by dsimp only [header]; omega)
  intro brk regions few
  simp only [wp_bind]
  refine setSize_spec (.inr trivial) ?_
  rw [Nat.mod_eq_of_lt (show n < 2 ^ 32 by omega)]
  refine wp_imp (tidy.free_wrapped (Nat.le_add_right h.brk gap) room bound ?_ ?_ ?_) ?_
  · rfl
  · rfl
  · rfl
  rintro _ h' ⟨same, mem, added⟩
  have few : h'.brk ≤ h.brk + gap + header := Nat.le_trans (Nat.le_of_eq same) few
  have notNull : h'.freep ≠ 0 := by
    have := tidy.base_le mem
    omega
  simp only [wp_get, wp_pure, if_neg notNull, wp_bind]
  obtain ⟨linked, size⟩ | ⟨lt, adjacent, size, same⟩ := added
  · cases fuel with
    | zero => trivial
    | succ =>
      rw [linked, Malloc.mallocLoop, wp_bind]
      refine access_spec (.inr trivial) ?_
      rw [wp_bind, wp_get, if_pos (Nat.le_of_eq size.symm), take, wp_bind, wp_get, if_pos size]
      simp only [wp_bind]
      exact setPtr_spec (.inr trivial) ⟨by dsimp only [header]; omega, few⟩
  obtain ⟨list, path, perm⟩ := tidy.ring.rotate_to mem
  have among : ∀ x ∈ h'.freep :: list, x ∈ base :: xs := fun x => perm.mem_iff.mp
  have distinct := perm.nodup_iff.mpr tidy.nodup
  have path' : CircularList.Path h'.ptr h'.freep list h'.freep :=
    path.congr (same _ mem).1 fun x mem => (same x (among x (.tail _ mem))).1
  apply mallocLoop_walk list path' (List.nodup_cons.mp distinct).1
    (fun _ _ => .inr trivial) fun _ => trivial
  · intro y inList enough
    have next := tidy.ring.next_mem_of_mem (among y inList)
    rw [← (same y (among y inList)).1] at next
    have target : h'.ptr y = h'.freep := by
      by_contra other
      rw [(same _ next).2 other] at enough
      exact Nat.not_lt.mpr enough (none _ next)
    have nonempty := tidy.blocks.nonempty _ (List.mem_append_left others lt)
    rw [target, take, wp_bind, wp_get, if_neg (by omega), size, Nat.add_sub_cancel, adjacent]
    simp only [wp_bind]
    exact setSize_spec (.inr trivial) (setSize_spec (.inr trivial)
      ⟨by dsimp only [header]; omega, few⟩)
  · intro _ _ small
    have := small h'.freep (by simp)
    omega

/-- No free block is large enough for such a request, and `malloc` returns no block below the
break. -/
theorem malloc_wrapped (nonzero : 0 < base)
    (ready : (∃ xs, Tidy base h xs others) ∨ (Untouched base h ∧ others = []))
    (large : 2 ^ 31 - 31 ≤ nbytes.toNat) (room : h.brk + gap ≤ 2 ^ 31) (fuel : Nat) :
    wp (malloc base fuel (some gap) nbytes) (fun ap h' => ap ≠ 0 ∧ h'.brk ≤ ap)
      (fun _ => True) h := by
  obtain ⟨h', xs, tidy, brk, -, loop⟩ := malloc_cases nonzero ready
  have bounds : 2 ^ 31 ≤ units nbytes * header ∧ units nbytes ≤ 2 ^ 28 + 1 := by
    have := nbytes.toNat_lt
    unfold units
    dsimp only [header]
    omega
  have none : ∀ x ∈ base :: xs, h'.size x < units nbytes := by
    intro x mem
    dsimp only [header] at bounds
    cases mem with
    | head =>
      rw [tidy.sentinel]
      omega
    | tail _ mem =>
      have within := tidy.blocks.within (List.mem_append_left others mem)
      dsimp only [header] at within
      omega
  apply loop
  apply tidy.mallocLoop (units_pos nbytes).1 (fun _ => trivial)
  · exact fun x mem enough => absurd (none x mem) (Nat.not_lt.mpr enough)
  · exact fun _ _ _ => tidy.refill_wrapped nonzero none bounds.1 bounds.2 (brk ▸ room)

end Wrapped

theorem Tidy.perm_others {others' : List Nat} (tidy : Tidy base h xs others)
    (perm : others.Perm others') : Tidy base h xs others' :=
  ⟨tidy.toFreeList, tidy.sentinel, tidy.blocks.perm (perm.append_left xs), tidy.above⟩

end Tidy

/-! ### Programs -/

def Session.heads (s : Session) : List Nat := s.live.map fun entry => entry.1 - header

/-- Before the first call, or: the free list is circular, in address order and without free
blocks that touch; every byte obtained from the kernel is in one block, free or in use, and
no other byte is; every block in use has room for what was asked for. -/
def Session.Sound (base : Nat) (s : Session) : Prop :=
  (s.heap.freep = 0 ∧ s.heap.regions = [] ∧ s.live = []) ∨
  ∃ xs, FreeList base s.heap xs ∧
    (∀ addr, cover header s.heap.size (xs ++ s.heads) addr =
      if s.heap.Obtained addr then 1 else 0) ∧
    ∀ entry ∈ s.live, entry.2 ≤ header * (s.heap.size (entry.1 - header) - 1)

/-- Calls that give `sbrk` a positive argument unless it refuses, while sizes fit a `uint`. -/
def Session.Moderate (s : Session) : Call → Prop
  | .malloc nbytes answer =>
    (answer = none ∨ nbytes.toNat < 2 ^ 31 - 31) ∧ Roomy s.heap answer
  | .free _ => True

def Session.Inv (base : Nat) (s : Session) : Prop :=
  (Untouched base s.heap ∧ s.live = []) ∨
  ∃ xs, Tidy base s.heap xs s.heads ∧ ∀ entry ∈ s.live, header ≤ entry.1 ∧
    entry.2 ≤ header * (s.heap.size (entry.1 - header) - 1)

variable {layout : Layout} {s s' : Session} {base : Nat}

theorem Session.Inv.sound (inv : s.Inv base) : s.Sound base := by
  obtain ⟨untouched, noLive⟩ | ⟨xs, tidy, fits⟩ := inv
  · exact .inl ⟨untouched.null, untouched.nothing, noLive⟩
  · exact .inr ⟨xs, tidy.toFreeList, tidy.blocks.exact, fun entry mem => (fits entry mem).2⟩

theorem inv_start (layout : Layout) : (Session.start layout).Inv layout.base :=
  .inl ⟨⟨rfl, rfl, layout.above⟩, rfl⟩

theorem Session.Inv.fits (inv : s.Inv base) {entry : Nat × Nat} (mem : entry ∈ s.live) :
    header ≤ entry.1 ∧
      entry.2 ≤ header * (s.heap.size (entry.1 - header) - 1) := by
  obtain ⟨_, noLive⟩ | ⟨_, _, fits⟩ := inv
  · rw [noLive] at mem
    cases mem
  · exact fits entry mem

theorem Session.Inv.ready (inv : s.Inv base) :
    (∃ xs, Tidy base s.heap xs s.heads) ∨ (Untouched base s.heap ∧ s.heads = []) := by
  obtain ⟨untouched, noLive⟩ | ⟨xs, tidy, _⟩ := inv
  · refine .inr ⟨untouched, ?_⟩
    rw [Session.heads, noLive]
    rfl
  · exact .inl ⟨xs, tidy⟩

/-- What a call of `malloc` leaves behind. -/
theorem Session.Inv.malloced {ap : Nat} {heap : Heap} (inv : s.Inv layout.base)
    (malloced : Malloced layout.base s.heads (units nbytes) s.heap ap heap) :
    Session.Inv layout.base
      ⟨heap, if ap = 0 then s.live else (ap, nbytes.toNat) :: s.live⟩ := by
  have old : (∀ x ∈ s.heads, heap.size x = s.heap.size x) → ∀ entry ∈ s.live,
      header ≤ entry.1 ∧
      entry.2 ≤ header * (heap.size (entry.1 - header) - 1) := by
    intro same entry mem
    rw [same _ (List.mem_map_of_mem mem)]
    exact inv.fits mem
  right
  obtain ⟨rfl, ⟨ys, tidy⟩, same⟩ | ⟨⟨b, ys, rfl, tidy, size⟩, same⟩ := malloced
  · exact ⟨ys, tidy, old same⟩
  rw [if_neg (by dsimp only [header]; omega)]
  refine ⟨ys, ?_, ?_⟩
  · have heads : Session.heads ⟨heap, (b + header, nbytes.toNat) :: s.live⟩ = b :: s.heads :=
      rfl
    exact tidy
  intro entry mem
  cases mem with
  | head =>
    refine ⟨Nat.le_add_left .., ?_⟩
    rw [Nat.add_sub_cancel, size]
    exact (units_pos nbytes).2
  | tail _ mem => exact old same entry mem

/-- What a call of `free` leaves behind. -/
theorem Session.Inv.freed {ap : Nat} (inv : s.Inv layout.base) (enabled : s.enabled (.free ap)) :
    ∃ bound, ∀ fuel, wp (free fuel ap)
      (fun _ heap => Session.Inv layout.base ⟨heap, s.live.eraseP fun entry => entry.1 = ap⟩)
      (fun _ => fuel < bound) s.heap := by
  obtain ⟨entry, mem, rfl⟩ := List.mem_map.mp enabled
  have fits := inv.fits mem
  obtain ⟨_, noLive⟩ | ⟨xs, tidy, allFit⟩ := inv
  · rw [noLive] at mem
    cases mem
  obtain ⟨_, pre, behind, _, same, parts, erased⟩ :=
    @List.exists_of_eraseP _ (fun other => decide (other.1 = entry.1)) _ entry mem
      (decide_eq_true rfl)
  have perm : s.heads.Perm ((entry.1 - header) ::
      (pre ++ behind).map fun entry => entry.1 - header) := by
    rw [Session.heads, parts, ← of_decide_eq_true same]
    exact List.perm_middle.map _
  refine ⟨xs.length + 1, fun fuel => ?_⟩
  have spec := @free_spec _ _ _ _ _ fuel (fuel < xs.length + 1) (tidy.perm_others perm) id
  apply wp_imp spec
  rintro _ _ ⟨⟨ys, tidy', _⟩, kept⟩
  right
  rw [erased]
  refine ⟨ys, tidy', ?_⟩
  intro _ among
  rw [kept.sizes _ (List.mem_map_of_mem among)]
  apply allFit
  rw [parts]
  exact List.mem_append.mpr ((List.mem_append.mp among).imp_right (.tail _))

/-- A call of such a program ends, and keeps what every run keeps. -/
theorem Session.Inv.call {call : Call} (inv : s.Inv layout.base) (enabled : s.enabled call)
    (moderate : s.Moderate call) :
    ∃ bound, ∀ fuel, (∃ next, s.step layout (fuel, call) = some next ∧ next.Inv layout.base) ∨
      (s.step layout (fuel, call) = none ∧ fuel < bound) := by
  cases call with
  | malloc nbytes answer =>
    obtain ⟨bound, spec⟩ := malloc_spec layout.nonzero inv.ready moderate.1 moderate.2
    refine ⟨bound, fun fuel => ?_⟩
    rw [Session.step, if_pos enabled]
    dsimp only
    cases ran : Malloc.malloc layout.base fuel answer nbytes s.heap with
    | error =>
      have few := wp_error (spec fuel) ran
      exact .inr ⟨rfl, few⟩
    | ok => exact .inl ⟨_, rfl, inv.malloced (wp_run (spec fuel) ran)⟩
  | free ap =>
    obtain ⟨bound, spec⟩ := inv.freed enabled
    refine ⟨bound, fun fuel => ?_⟩
    rw [Session.step, if_pos enabled]
    dsimp only
    cases ran : Malloc.free fuel ap s.heap with
    | error =>
      have few := wp_error (spec fuel) ran
      exact .inr ⟨rfl, few⟩
    | ok =>
      have freed := wp_run (spec fuel) ran
      exact .inl ⟨_, rfl, freed⟩

theorem Session.enabled_of_step {event : Nat × Call}
    (stepped : s.step layout event = some s') : s.enabled event.2 := by
  by_contra disabled
  rw [Session.step, if_neg disabled] at stepped
  cases stepped

/-- Runs of calls that ask for less than `2 ^ 31 - 31` bytes each or are refused, while the break
is below `2 ^ 36 - 2 ^ 31`. -/
abbrev ModerateRun (layout : Layout) (s : Session) : Prop :=
  Transition.Run (Session.step layout) (fun s event => s.Moderate event.2) (Session.start layout) s

theorem Session.Inv.of_run (run : ModerateRun layout s) : s.Inv layout.base := by
  apply run.invariant (inv_start layout)
  intro s event next inv moderate stepped
  obtain ⟨_, spec⟩ := inv.call (Session.enabled_of_step stepped) moderate
  obtain ⟨next', stepped', inv'⟩ | ⟨stuck, _⟩ := spec event.1
  · obtain rfl : _ = _ := Option.some.inj (stepped'.symm.trans stepped)
    exact inv'
  · rw [stepped] at stuck
    cases stuck

/-- In every run of calls that ask for less than `2 ^ 31 - 31` bytes each or are refused, while the
break is below `2 ^ 36 - 2 ^ 31`, the heap is sound, and every further such call ends. -/
theorem malloc_free_sound (layout : Layout) {s : Session}
    (run : Transition.Run (Session.step layout) (fun s event => s.Moderate event.2)
      (Session.start layout) s) :
    s.Sound layout.base ∧
    ∀ call, s.enabled call → s.Moderate call →
      ∃ bound, ∀ fuel, bound ≤ fuel → (s.step layout (fuel, call)).isSome := by
  have inv := Session.Inv.of_run run
  refine ⟨inv.sound, ?_⟩
  intro _ enabled moderate
  obtain ⟨bound, spec⟩ := inv.call enabled moderate
  refine ⟨bound, fun fuel enough => ?_⟩
  obtain ⟨_, stepped, _⟩ | ⟨_, few⟩ := spec fuel
  · rw [stepped]
    rfl
  · exact absurd enough (Nat.not_le.mpr few)

instance (s : Session) : ∀ call, Decidable (s.Moderate call)
  | .malloc _ answer => inferInstanceAs (Decidable (_ ∧ ∀ gap ∈ answer, _ ≤ _))
  | .free _ => .isTrue trivial

/-- A program with its static header at 4096 and its break at 16384. -/
def smallLayout : Layout := ⟨4096, 16384, by decide, by decide⟩

/-- Two blocks are allocated and the first one is freed. -/
theorem malloc_free_sound_two : ∃ s, Transition.Run (Session.step smallLayout)
    (fun s event => s.Moderate event.2) (Session.start smallLayout) s ∧
    s.live = [(81584, 200)] ∧ s.Sound 4096 := by
  obtain ⟨s, run, live⟩ := Transition.exists_run_of_runChecked (Session.step smallLayout)
    (fun s event => s.Moderate event.2) (Session.start smallLayout)
    [(10, .malloc 100 (some 0)), (10, .malloc 200 none), (10, .free 81808)]
    (P := (·.live = [(81584, 200)])) (by decide +kernel)
  exact ⟨s, run, live, (malloc_free_sound smallLayout run).1⟩

/-- `malloc(4294967295)` asks `sbrk` for 16 bytes, and returns a block of 4 GiB. -/
theorem malloc_without_memory : ∃ s, Transition.Run (Session.step smallLayout) (fun _ _ => True)
    (Session.start smallLayout) s ∧ s.live = [(16400, 4294967295)] ∧
    s.heap.regions = [⟨16384, 16400⟩] ∧ ¬ s.Sound 4096 := by
  obtain ⟨s, run, live, little, size⟩ := Transition.exists_run_of_runFrom
    (Session.step smallLayout) (Session.start smallLayout) [(10, .malloc 4294967295 (some 0))]
    (P := fun s => s.live = [(16400, 4294967295)] ∧ s.heap.regions = [⟨16384, 16400⟩] ∧
      s.heap.size 16384 = 268435457) (by decide +kernel)
  refine ⟨s, run, live, little, ?_⟩
  rintro (⟨_, _, noLive⟩ | ⟨_, _, exact_, _⟩)
  · rw [live] at noLive
    cases noLive
  have covered := exact_ 16400
  have absent : ¬ s.heap.Obtained 16400 := by
    rw [Heap.Obtained, little]
    simp
  have heads : s.heads = [16384] := by
    rw [Session.heads, live]
    rfl
  rw [if_neg absent, heads, Tiling.cover_append, Tiling.cover_cons, size] at covered
  simp [header] at covered

/-- The bytes asked for were obtained from `sbrk` and lie below the break. -/
def Backed (heap : Heap) (ap nbytes : Nat) : Prop :=
  ∀ addr, ap ≤ addr → addr < ap + nbytes → heap.Obtained addr ∧ addr < heap.brk

theorem Taken.backed {base n ap : Nat} {others : List Nat} {h heap : Heap}
    (taken : Taken base others n h ap heap) {bytes : Nat} (fits : bytes ≤ header * (n - 1)) :
    Backed heap ap bytes := by
  obtain ⟨⟨b, ys, rfl, tidy, size⟩, _⟩ := taken
  intro addr above below
  have obtained : heap.Obtained addr := by
    apply tidy.blocks.obtained (List.mem_append_right _ (.head _))
    dsimp only [header] at *
    omega
  exact ⟨obtained, (tidy.blocks.bounds addr obtained).2⟩

/-- After such a run, with a break of at most `2 ^ 31`, `malloc` returns NULL or a block that is
backed exactly if the kernel would refuse or the request is below `2 ^ 31 - 31` bytes; and exactly
for those requests `morecore` passes its byte count to `sbrk` unchanged. -/
theorem malloc_backed (layout : Layout) {s : Session} (run : ModerateRun layout s)
    (nbytes : UInt32) (answer : Option Nat) (room : ∀ gap ∈ answer, s.heap.brk + gap ≤ 2 ^ 31) :
    ((∃ bound, ∀ fuel, bound ≤ fuel → ∃ ap heap,
      malloc layout.base fuel answer nbytes s.heap = .ok (ap, heap) ∧
        (ap = 0 ∨ Backed heap ap nbytes.toNat)) ↔
      answer = none ∨ nbytes.toNat < 2 ^ 31 - 31) ∧
    (toInt (max 4096 (units nbytes) * header) = (max 4096 (units nbytes) * header : Nat) ↔
      nbytes.toNat < 2 ^ 31 - 31) := by
  have ready := (Session.Inv.of_run run).ready
  refine ⟨⟨fun ⟨bound, returns⟩ => ?_, fun small => ?_⟩, ?_⟩
  · by_contra out
    obtain ⟨asked, large⟩ := not_or.mp out
    obtain ⟨gap, rfl⟩ := Option.ne_none_iff_exists'.mp asked
    obtain ⟨ap, heap, ret, outcome⟩ := returns bound (Nat.le_refl _)
    obtain ⟨notNull, above⟩ := wp_run (malloc_wrapped layout.nonzero ready
      (Nat.le_of_not_lt large) (room gap rfl) bound) ret
    have below := (outcome.resolve_left notNull ap (Nat.le_refl _) (by omega)).2
    omega
  · have roomy : Roomy s.heap answer := fun gap mem => by
      have := room gap mem
      omega
    obtain ⟨bound, spec⟩ := malloc_spec layout.nonzero ready small roomy
    refine ⟨bound, fun fuel enough => ?_⟩
    cases ret : malloc layout.base fuel answer nbytes s.heap with
    | error => exact absurd (wp_error (spec fuel) ret) (Nat.not_lt.mpr enough)
    | ok res =>
      refine ⟨res.1, res.2, rfl, ?_⟩
      obtain ⟨null, _⟩ | taken := wp_run (spec fuel) ret
      · exact .inl null
      · exact .inr (taken.backed (units_pos nbytes).2)
  · have := nbytes.toNat_lt
    rw [toInt_eq_iff]
    simp only [units, header]
    omega

/-- A large request that the kernel refuses, after a small one. -/
theorem malloc_backed_refused : ∃ s, ModerateRun smallLayout s ∧ s.live = [(81808, 100)] ∧
    ∃ bound, ∀ fuel, bound ≤ fuel → ∃ ap heap,
      malloc 4096 fuel none 4294967295 s.heap = .ok (ap, heap) ∧
        (ap = 0 ∨ Backed heap ap 4294967295) := by
  obtain ⟨s, run, live⟩ := Transition.exists_run_of_runChecked (Session.step smallLayout)
    (fun s event => s.Moderate event.2) (Session.start smallLayout)
    [(10, .malloc 100 (some 0))] (P := (·.live = [(81808, 100)])) (by decide +kernel)
  exact ⟨s, run, live, (malloc_backed smallLayout run 4294967295 none (by simp)).1.mpr (.inl rfl)⟩

/-- `malloc(4294967295)` returns a block that begins at the break. -/
theorem malloc_above_break : ∃ s, Transition.Run (Session.step smallLayout) (fun _ _ => True)
    (Session.start smallLayout) s ∧ s.live = [(16400, 4294967295)] ∧ s.heap.brk = 16400 :=
  Transition.exists_run_of_runFrom _ _ [(10, .malloc 4294967295 (some 0))] (by decide +kernel)

end Malloc

end CustomXv6

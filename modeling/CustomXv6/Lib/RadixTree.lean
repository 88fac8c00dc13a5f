/-
Module: CustomXv6.Lib.RadixTree
Purpose: Trees of pages of words in a flat memory, in which a key is looked up digit by digit.
Trusted boundary: none
Main exports: Format, Format.entry, Format.pages
-/
import Mathlib.Data.List.Nodup
import Mathlib.Data.List.Pairwise
import Mathlib.Data.List.Perm.Basic
import Mathlib.Tactic.Ring

namespace RadixTree

open Function

variable {Page Word : Type*}

/-- How the words of a memory are read as a tree: the number of words of a
page, the page an inner word points to, and the word that points nowhere. -/
structure Format (Page Word : Type*) where
  width : Nat
  positive : 0 < width
  child : Word → Option Page
  blank : Word
  blank_child : child blank = none

def setWord [DecidableEq Page] (mem : Page → Nat → Word) (page : Page) (i : Nat) (word : Word) :
    Page → Nat → Word := update mem page (update (mem page) i word)

section SetWord

variable [DecidableEq Page] {mem : Page → Nat → Word} {page other : Page} {i j : Nat} {word : Word}

@[simp] theorem setWord_self : setWord mem page i word page i = word := by
  rw [setWord, update_self, update_self]

theorem setWord_of_ne (ne : other ≠ page) : setWord mem page i word other = mem other :=
  update_of_ne ne _ _

theorem setWord_word_of_ne (ne : j ≠ i) : setWord mem page i word page j = mem page j := by
  rw [setWord, update_self, update_of_ne ne]

end SetWord

namespace Format

variable (F : Format Page Word)

/-!
A tree of level 0 is a page whose words are the entries; a tree of level `level + 1` is a page
whose words point to trees of level `level`.  The digit of the level selects the word to
follow.  That no two of its pages are the same appears below as the hypothesis that the list of
its pages has no duplicates.
-/

/-- The digit of a key that is used at a level. -/
def digit (level key : Nat) : Nat := key / F.width ^ level % F.width

theorem digit_lt (level key : Nat) : F.digit level key < F.width := Nat.mod_lt _ F.positive

/-- The page in which the entry of a key stands, if the words on the way point
somewhere. -/
def leafPage (mem : Page → Nat → Word) : Nat → Page → Nat → Option Page
  | 0, page, _ => some page
  | level + 1, page, key =>
    match F.child (mem page (F.digit (level + 1) key)) with
    | some below => leafPage mem level below key
    | none => none

def entry (mem : Page → Nat → Word) (level : Nat) (page : Page) (key : Nat) : Word :=
  match F.leafPage mem level page key with
  | some leaf => mem leaf (F.digit 0 key)
  | none => F.blank

/-- The pages of a tree, each as often as it is reached. -/
def pages (mem : Page → Nat → Word) : Nat → Page → List Page
  | 0, page => [page]
  | level + 1, page =>
    page :: (List.range F.width).flatMap fun i =>
      match F.child (mem page i) with
      | some below => pages mem level below
      | none => []

/-- The pages of the tree below one word. -/
def below (mem : Page → Nat → Word) (level : Nat) (page : Page) (i : Nat) : List Page :=
  match F.child (mem page i) with
  | some child => F.pages mem level child
  | none => []

/-- The pages of a tree without those below one word. -/
def others (mem : Page → Nat → Word) (level : Nat) (page : Page) (i : Nat) : List Page :=
  page :: ((List.range F.width).erase i).flatMap (F.below mem level page)

/-- Every word that is not an entry satisfies a condition. -/
def Inner (good : Word → Prop) (mem : Page → Nat → Word) : Nat → Page → Prop
  | 0, _ => True
  | level + 1, page =>
    ∀ i < F.width, good (mem page i) ∧
      ∀ child, F.child (mem page i) = some child → Inner good mem level child

variable {F} {mem mem' : Page → Nat → Word} {level : Nat} {page : Page}
variable {i key key' : Nat} {child : Page}

theorem pages_succ : F.pages mem (level + 1) page =
    page :: (List.range F.width).flatMap (F.below mem level page) := rfl

theorem below_some (here : F.child (mem page i) = some child) :
    F.below mem level page i = F.pages mem level child := by
  rw [below, here]

theorem below_none (here : F.child (mem page i) = none) : F.below mem level page i = [] := by
  rw [below, here]

theorem leafPage_some (here : F.child (mem page (F.digit (level + 1) key)) = some child) :
    F.leafPage mem (level + 1) page key = F.leafPage mem level child key := by
  rw [leafPage, here]

theorem leafPage_none (here : F.child (mem page (F.digit (level + 1) key)) = none) :
    F.leafPage mem (level + 1) page key = none := by
  rw [leafPage, here]

theorem entry_some (here : F.child (mem page (F.digit (level + 1) key)) = some child) :
    F.entry mem (level + 1) page key = F.entry mem level child key := by
  rw [entry, entry, leafPage_some here]

theorem entry_none (here : F.child (mem page (F.digit (level + 1) key)) = none) :
    F.entry mem (level + 1) page key = F.blank := by
  rw [entry, leafPage_none here]

theorem root_mem : page ∈ F.pages mem level page := by
  cases level with
  | zero => exact List.mem_singleton_self page
  | succ => exact .head _

theorem mem_pages_of_child {p : Page} (lt : i < F.width)
    (here : F.child (mem page i) = some child) (member : p ∈ F.pages mem level child) :
    p ∈ F.pages mem (level + 1) page := by
  rw [pages_succ]
  apply List.mem_cons_of_mem
  apply List.mem_flatMap.mpr
  exact ⟨i, List.mem_range.mpr lt, by rwa [below_some here]⟩

variable {leaf : Page} {good : Word → Prop}

theorem leafPage_mem (found : F.leafPage mem level page key = some leaf) :
    leaf ∈ F.pages mem level page := by
  induction level generalizing page with
  | zero =>
    cases found
    exact List.mem_singleton_self leaf
  | succ level ih =>
    cases here : F.child (mem page (F.digit (level + 1) key)) with
    | none =>
      rw [leafPage_none here] at found
      cases found
    | some =>
      rw [leafPage_some here] at found
      exact mem_pages_of_child (F.digit_lt _ _) here (ih found)

section

variable (same : key % F.width ^ (level + 1) = key' % F.width ^ (level + 1))
include same

/-- Digits above the level of a tree do not matter. -/
theorem leafPage_mod : F.leafPage mem level page key = F.leafPage mem level page key' := by
  induction level generalizing page with
  | zero => rfl
  | succ level ih =>
    rw [Nat.pow_succ _ (level + 1), Nat.mod_mul, Nat.mod_mul] at same
    have low : key % F.width ^ (level + 1) = key' % F.width ^ (level + 1) := by
      have := congrArg (· % F.width ^ (level + 1)) same
      simpa only [Nat.add_mul_mod_self_left, Nat.mod_mod] using this
    have high : F.digit (level + 1) key = F.digit (level + 1) key' := by
      rw [low, Nat.add_left_cancel_iff] at same
      exact Nat.eq_of_mul_eq_mul_left (Nat.pow_pos F.positive) same
    cases here : F.child (mem page (F.digit (level + 1) key)) with
    | none => rw [leafPage_none here, leafPage_none (by rw [← high]; exact here)]
    | some =>
      rw [leafPage_some here, leafPage_some (by rw [← high]; exact here)]
      exact ih low

theorem digit_zero_of_mod : F.digit 0 key = F.digit 0 key' := by
  have := congrArg (· % F.width) same
  rw [Nat.pow_succ] at this
  simpa only [Nat.mod_mul_left_mod, digit, Nat.pow_zero, Nat.div_one] using this

theorem entry_mod : F.entry mem level page key = F.entry mem level page key' := by
  rw [entry, entry, leafPage_mod same, digit_zero_of_mod same]

end

/-- What holds of all entries of a tree holds of those of the trees below it. -/
theorem entry_child {P : Word → Prop} (all : ∀ key, P (F.entry mem (level + 1) page key))
    (lt : i < F.width) (here : F.child (mem page i) = some child) (key : Nat) :
    P (F.entry mem level child key) := by
  -- The key with the digit `i` in front of its lower digits.
  have lower : key % F.width ^ (level + 1) < F.width ^ (level + 1) :=
    Nat.mod_lt _ (Nat.pow_pos F.positive)
  have top : F.digit (level + 1) (F.width ^ (level + 1) * i + key % F.width ^ (level + 1)) = i := by
    rw [digit, Nat.mul_add_div (Nat.pow_pos F.positive), Nat.div_eq_of_lt lower, Nat.add_zero,
      Nat.mod_eq_of_lt lt]
  have low : (F.width ^ (level + 1) * i + key % F.width ^ (level + 1)) % F.width ^ (level + 1) =
      key % F.width ^ (level + 1) := by
    rw [Nat.mul_add_mod, Nat.mod_mod]
  have holds := all (F.width ^ (level + 1) * i + key % F.width ^ (level + 1))
  rw [← top] at here
  rwa [entry_some here, entry_mod low] at holds

/-! ### A tree whose pages are distinct -/

section Distinct

/-- The tree below a word has distinct pages, and the page of the word is not
one of them. -/
theorem nodup_child (distinct : (F.pages mem (level + 1) page).Nodup) (lt : i < F.width)
    (here : F.child (mem page i) = some child) :
    (F.pages mem level child).Nodup ∧ page ∉ F.pages mem level child := by
  rw [pages_succ, List.nodup_cons, List.nodup_flatMap] at distinct
  constructor
  · have := distinct.2.1 i (List.mem_range.mpr lt)
    rwa [below_some here] at this
  · intro _
    apply distinct.1
    apply List.mem_flatMap.mpr
    exact ⟨i, List.mem_range.mpr lt, by rwa [below_some here]⟩

/-- The trees below two words of a page share no page. -/
theorem disjoint_children {j : Nat} {child' p : Page}
    (distinct : (F.pages mem (level + 1) page).Nodup) (lt : i < F.width)
    (inside' : j < F.width) (ne : i ≠ j) (here : F.child (mem page i) = some child)
    (there : F.child (mem page j) = some child') (member : p ∈ F.pages mem level child) :
    p ∉ F.pages mem level child' := by
  rw [pages_succ, List.nodup_cons, List.nodup_flatMap] at distinct
  have symmetric : Std.Symm (Function.onFun List.Disjoint (F.below mem level page)) :=
    ⟨fun _ _ disjoint _ first second => disjoint second first⟩
  have apart : List.Disjoint (F.below mem level page i) (F.below mem level page j) :=
    distinct.2.2.forall (List.mem_range.mpr lt) (List.mem_range.mpr inside') ne
  rw [below_some here, below_some there] at apart
  exact apart member

/-- Two keys whose entries stand at one place are equal up to the digits the
tree uses. -/
theorem key_of_place (distinct : (F.pages mem level page).Nodup)
    (found : F.leafPage mem level page key = some leaf)
    (found' : F.leafPage mem level page key' = some leaf) (last : F.digit 0 key = F.digit 0 key') :
    key % F.width ^ (level + 1) = key' % F.width ^ (level + 1) := by
  induction level generalizing page with
  | zero => simpa only [digit, Nat.pow_zero, Nat.div_one, Nat.zero_add, Nat.pow_one] using last
  | succ level ih =>
    cases here : F.child (mem page (F.digit (level + 1) key)) with
    | none =>
      rw [leafPage_none here] at found
      cases found
    | some =>
      cases there : F.child (mem page (F.digit (level + 1) key')) with
      | none =>
        rw [leafPage_none there] at found'
        cases found'
      | some =>
        rw [leafPage_some here] at found
        rw [leafPage_some there] at found'
        by_cases same : F.digit (level + 1) key = F.digit (level + 1) key'
        · rw [← same, here] at there
          cases there
          have low := ih
            (nodup_child distinct (F.digit_lt _ _) here).1 found found'
          simp only [digit] at same
          rw [Nat.pow_succ _ (level + 1), Nat.mod_mul, Nat.mod_mul, low, same]
        · exact absurd (leafPage_mem found') (disjoint_children distinct (F.digit_lt _ _)
            (F.digit_lt _ _) same here there (leafPage_mem found))

end Distinct

/-! ### What a change of the memory leaves -/

/-- The tree has the same pages, finds keys in the same places, and its inner
words are as good as before. -/
structure Same (F : Format Page Word) (mem mem' : Page → Nat → Word) (level : Nat)
    (page : Page) : Prop where
  pages : F.pages mem' level page = F.pages mem level page
  leafPage : ∀ key, F.leafPage mem' level page key = F.leafPage mem level page key
  inner : ∀ good, F.Inner good mem level page → F.Inner good mem' level page

/-- The tree is the same if its topmost page is and the trees below it are. -/
theorem Same.succ (top : ∀ i, mem' page i = mem page i)
    (trees : ∀ i < F.width, ∀ child, F.child (mem page i) = some child →
      F.Same mem mem' level child) : F.Same mem mem' (level + 1) page := by
  constructor
  · rw [pages_succ, pages_succ]
    congr 1
    apply List.flatMap_congr
    intro i member
    rw [below, below, top]
    cases here : F.child (mem page i) with
    | none => rfl
    | some child => exact (trees i (List.mem_range.mp member) child here).pages
  · intro key
    cases here : F.child (mem page (F.digit (level + 1) key)) with
    | none => rw [leafPage_none here, leafPage_none (by rw [top]; exact here)]
    | some child =>
      rw [leafPage_some here, leafPage_some (by rw [top]; exact here)]
      exact (trees _ (F.digit_lt _ _) child here).leafPage key
  · intro good inner i lt
    rw [top]
    exact ⟨(inner i lt).1, fun child here =>
      (trees i lt child here).inner good ((inner i lt).2 child here)⟩

/-- A tree none of whose pages is written is the same. -/
theorem same_congr (agree : ∀ p ∈ F.pages mem level page, mem' p = mem p) :
    F.Same mem mem' level page := by
  induction level generalizing page with
  | zero => exact ⟨rfl, fun _ => rfl, fun _ _ => trivial⟩
  | succ _ ih =>
    apply Same.succ
    · intro i
      rw [agree page root_mem]
    intro i lt _ here
    apply ih
    intro p member
    exact agree p (mem_pages_of_child lt here member)

theorem entry_congr (agree : ∀ p ∈ F.pages mem level page, mem' p = mem p) (key : Nat) :
    F.entry mem' level page key = F.entry mem level page key := by
  rw [entry, entry, (same_congr agree).leafPage]
  cases found : F.leafPage mem level page key with
  | none => rfl
  | some leaf => exact congrFun (agree leaf (leafPage_mem found)) _

section Write

variable [DecidableEq Page]

/-- Writing the entry of a key keeps the tree. -/
theorem same_write (distinct : (F.pages mem level page).Nodup)
    (found : F.leafPage mem level page key = some leaf) (i : Nat) (word : Word) :
    F.Same mem (setWord mem leaf i word) level page := by
  induction level generalizing page with
  | zero => exact ⟨rfl, fun _ => rfl, fun _ _ => trivial⟩
  | succ level ih =>
    cases here : F.child (mem page (F.digit (level + 1) key)) with
    | none =>
      rw [leafPage_none here] at found
      cases found
    | some =>
      rw [leafPage_some here] at found
      obtain ⟨childDistinct, notPage⟩ := nodup_child distinct (F.digit_lt _ _) here
      have inChild := leafPage_mem found
      apply Same.succ
      · intro j
        rw [setWord_of_ne]
        rintro rfl
        exact notPage inChild
      intro j lt _ there
      by_cases same : j = F.digit (level + 1) key
      · rw [same, here] at there
        cases there
        exact ih childDistinct found
      -- The trees beside the one that is written share no page with it.
      apply same_congr
      intro p member
      apply setWord_of_ne
      rintro rfl
      exact disjoint_children distinct lt (F.digit_lt _ _) same there here member
        inChild

/-- Writing the entry of a key changes that entry and no other. -/
theorem entry_write (distinct : (F.pages mem level page).Nodup)
    (found : F.leafPage mem level page key = some leaf) (word : Word) (other : Nat) :
    F.entry (setWord mem leaf (F.digit 0 key) word) level page other =
      if other % F.width ^ (level + 1) = key % F.width ^ (level + 1) then word
      else F.entry mem level page other := by
  have kept := (same_write distinct found (F.digit 0 key) word).leafPage
  split
  · rename_i same
    have digits : F.digit 0 other = F.digit 0 key := digit_zero_of_mod same
    have place : F.leafPage mem level page other = some leaf := by
      rw [← found]
      exact leafPage_mod same
    rw [entry, kept, place]
    simp only [digits, setWord_self]
  rename_i ne
  rw [entry, entry, kept]
  cases place : F.leafPage mem level page other with
  | none => rfl
  | some leaf' =>
    by_cases samePage : leaf' = leaf
    · subst samePage
      apply setWord_word_of_ne
      intro last
      exact ne (key_of_place distinct place found last)
    · exact congrFun (setWord_of_ne samePage) _

end Write

/-! ### One word of the topmost page and the tree below it -/

/-- The pages of a tree are those below one word and the others. -/
theorem pages_perm (lt : i < F.width) :
    (F.pages mem (level + 1) page).Perm (F.others mem level page i ++ F.below mem level page i) := by
  have range := List.perm_cons_erase (List.mem_range.mpr lt)
  have trees := range.flatMap_right (F.below mem level page)
  exact (trees.trans List.perm_append_comm).cons page

/-- The trees beside one word, and the words that point to them, are not
written. -/
structure Beside (F : Format Page Word) (mem mem' : Page → Nat → Word) (level : Nat)
    (page : Page) (i : Nat) : Prop where
  words : ∀ j, j ≠ i → mem' page j = mem page j
  trees : ∀ j < F.width, j ≠ i → ∀ child, F.child (mem page j) = some child →
    ∀ p ∈ F.pages mem level child, mem' p = mem p

/-- No page of a tree but those below one word is written. -/
theorem beside_of_others (agree : ∀ p ∈ F.others mem level page i, mem' p = mem p) :
    F.Beside mem mem' level page i := by
  constructor
  · intro j _
    rw [agree page List.mem_cons_self]
  intro j lt ne _ here p _
  apply agree
  apply List.mem_cons_of_mem
  apply List.mem_flatMap.mpr
  refine ⟨j, (List.nodup_range.mem_erase_iff).mpr ⟨ne, List.mem_range.mpr lt⟩, ?_⟩
  rwa [below_some here]

namespace Beside

variable {i : Nat}

variable (beside : F.Beside mem mem' level page i)
include beside

theorem others : F.others mem' level page i = F.others mem level page i := by
  rw [Format.others, Format.others]
  congr 1
  apply List.flatMap_congr
  intro j member
  obtain ⟨ne, lt⟩ := List.nodup_range.mem_erase_iff.mp member
  rw [below, below, beside.words j ne]
  cases here : F.child (mem page j) with
  | none => rfl
  | some child =>
    exact (same_congr (beside.trees j (List.mem_range.mp lt) ne child here)).pages

/-- Keys that do not use the word have the entries they had. -/
theorem entry (ne : F.digit (level + 1) key ≠ i) :
    F.entry mem' (level + 1) page key = F.entry mem (level + 1) page key := by
  have word := beside.words _ ne
  cases here : F.child (mem page (F.digit (level + 1) key)) with
  | none => rw [entry_none here, entry_none (by rw [word]; exact here)]
  | some child =>
    rw [entry_some here, entry_some (by rw [word]; exact here)]
    exact entry_congr (beside.trees _ (F.digit_lt _ _) ne child here) key

theorem inner (pre : F.Inner good mem (level + 1) page) (word : good (mem' page i))
    (tree : ∀ child, F.child (mem' page i) = some child → F.Inner good mem' level child) :
    F.Inner good mem' (level + 1) page := by
  intro j lt
  by_cases same : j = i
  · subst same
    exact ⟨word, tree⟩
  rw [beside.words j same]
  refine ⟨(pre j lt).1, fun child here => ?_⟩
  exact (same_congr (beside.trees j lt same child here)).inner good
    ((pre j lt).2 child here)

end Beside

/-! ### A fresh page -/

/-- A page of blank words is a tree of one page at every level. -/
theorem pages_blank (fresh : ∀ i, mem page i = F.blank) : F.pages mem level page = [page] := by
  cases level with
  | zero => rfl
  | succ =>
    rw [pages_succ, List.cons_inj_right]
    apply List.flatMap_eq_nil_iff.mpr
    intro i _
    apply below_none
    rw [fresh]
    exact F.blank_child

theorem entry_blank (fresh : ∀ i, mem page i = F.blank) (key : Nat) :
    F.entry mem level page key = F.blank := by
  cases level with
  | zero => exact fresh _
  | succ =>
    apply entry_none
    rw [fresh]
    exact F.blank_child

theorem inner_blank (blank : good F.blank) (fresh : ∀ i, mem page i = F.blank) :
    F.Inner good mem level page := by
  cases level with
  | zero => trivial
  | succ =>
    intro i _
    rw [fresh]
    refine ⟨blank, fun child here => ?_⟩
    rw [F.blank_child] at here
    cases here

end Format

end RadixTree

/-
Module: CustomXv6.User.Grep
Purpose: grep (user/grep.c): the language of its matcher, and its line buffer.
Trusted boundary: none
Main exports: Grep.matchRe_iff, Grep.grep_writes_matches
-/
import Mathlib.Data.List.Induction
import Mathlib.Order.Lattice

namespace CustomXv6

namespace Grep

/-! ### The matcher

A string is the list of its bytes in front of the NUL. -/

def star : UInt8 := 42

def dollar : UInt8 := 36

def dot : UInt8 := 46

def caret : UInt8 := 94

/-- The last test of `matchhere`: one byte of the pattern against one of the text. -/
def matchone (here : List UInt8 → Bool) (c : UInt8) : List UInt8 → Bool
  | [] => false
  | x :: text => (c = dot ∨ c = x) && here text

/-- `matchstar`, with `matchhere` for the rest of the pattern. -/
def matchstar (here : List UInt8 → Bool) (c : UInt8) : List UInt8 → Bool
  | [] => here []
  | x :: text => here (x :: text) || (x = c ∨ c = dot) && matchstar here c text

def matchhere : List UInt8 → List UInt8 → Bool
  | [], _ => true
  | [c], text => if c = dollar then text.isEmpty else matchone (matchhere []) c text
  | c :: d :: re, text =>
    if d = star then matchstar (matchhere re) c text else matchone (matchhere (d :: re)) c text

/-- The loop of `match`. -/
def matchLoop (re : List UInt8) : List UInt8 → Bool
  | [] => matchhere re []
  | x :: text => matchhere re (x :: text) || matchLoop re text

/-- `match`. -/
def matchRe (re text : List UInt8) : Bool :=
  if re.head? = some caret then matchhere re.tail text else matchLoop re text

/-! ### The language -/

/-- The pattern reads `u` in front of `rest`. -/
inductive Reads : (re u rest : List UInt8) → Prop
  | done (rest) : Reads [] [] rest
  | star {c re us u rest} : (∀ x ∈ us, x = c ∨ c = dot) → Reads re u rest →
      Reads (c :: star :: re) (us ++ u) rest
  | final : Reads [dollar] [] []
  | one {c x re u rest} : re.head? ≠ some Grep.star → (c = dollar → re ≠ []) → (c = dot ∨ c = x) →
      Reads re u rest → Reads (c :: re) (x :: u) rest

variable {here : List UInt8 → Bool} {c : UInt8}

theorem matchone_iff (text : List UInt8) : matchone here c text = true ↔
    ∃ x rest, text = x :: rest ∧ (c = dot ∨ c = x) ∧ here rest = true := by
  cases text with
  | nil => simp [matchone]
  | cons x _ => simp [matchone]

theorem matchstar_iff (text : List UInt8) : matchstar here c text = true ↔
    ∃ us rest, text = us ++ rest ∧ (∀ x ∈ us, x = c ∨ c = dot) ∧ here rest = true := by
  induction text with
  | nil => simp [matchstar]
  | cons x text ih =>
    simp only [matchstar, Bool.or_eq_true, Bool.and_eq_true, decide_eq_true_eq, ih]
    constructor
    · rintro (found | ⟨first, us, rest, rfl, all, found⟩)
      · exact ⟨[], x :: text, rfl, nofun, found⟩
      · exact ⟨x :: us, rest, rfl, List.forall_mem_cons.mpr ⟨first, all⟩, found⟩
    rintro ⟨us, rest, split, all, found⟩
    cases us with
    | nil => exact .inl (split ▸ found)
    | cons y us =>
      cases split
      rw [List.forall_mem_cons] at all
      exact .inr ⟨all.1, us, rest, rfl, all.2, found⟩

theorem matchone_reads {re : List UInt8} (plain : re.head? ≠ some star)
    (inner : c = dollar → re ≠ [])
    (ih : ∀ text, matchhere re text = true ↔ ∃ u rest, text = u ++ rest ∧ Reads re u rest)
    (text : List UInt8) : matchone (matchhere re) c text = true ↔
      ∃ u rest, text = u ++ rest ∧ Reads (c :: re) u rest := by
  rw [matchone_iff]
  constructor
  · rintro ⟨x, rest, rfl, same, found⟩
    obtain ⟨u, rest, rfl, reads⟩ := (ih rest).mp found
    exact ⟨x :: u, rest, rfl, .one plain inner same reads⟩
  rintro ⟨u, rest, rfl, reads⟩
  cases reads with
  | star => exact absurd rfl plain
  | final => exact absurd rfl (inner rfl)
  | one _ _ same reads => exact ⟨_, _, rfl, same, (ih _).mpr ⟨_, rest, rfl, reads⟩⟩

theorem matchhere_iff (re text : List UInt8) : matchhere re text = true ↔
    ∃ u rest, text = u ++ rest ∧ Reads re u rest := by
  have empty : ∀ text, matchhere [] text = true ↔ ∃ u rest, text = u ++ rest ∧ Reads [] u rest :=
    fun text => ⟨fun _ => ⟨[], text, rfl, .done text⟩, fun _ => rfl⟩
  induction re using List.twoStepInduction generalizing text with
  | nil => exact empty text
  | singleton c =>
    rw [matchhere]
    split
    · rename_i isDollar
      subst isDollar
      rw [List.isEmpty_iff]
      constructor
      · rintro rfl
        exact ⟨[], [], rfl, .final⟩
      · rintro ⟨u, rest, rfl, reads⟩
        cases reads with
        | final => rfl
        | one _ inner => exact absurd rfl (inner rfl)
    · rename_i other
      exact matchone_reads (by simp) (fun same => absurd same other) empty text
  | cons_cons c d re ih ih' =>
    rw [matchhere]
    split
    · rename_i isStar
      subst isStar
      rw [matchstar_iff]
      constructor
      · rintro ⟨us, rest, rfl, all, found⟩
        obtain ⟨u, rest, rfl, reads⟩ := (ih rest).mp found
        exact ⟨us ++ u, rest, (List.append_assoc ..).symm, .star all reads⟩
      rintro ⟨u, rest, rfl, reads⟩
      cases reads with
      | star all reads =>
        exact ⟨_, _, List.append_assoc .., all, (ih _).mpr ⟨_, rest, rfl, reads⟩⟩
      | one plain => exact absurd rfl plain
    · rename_i plain
      exact matchone_reads (by simpa using plain) (fun _ => List.cons_ne_nil d re) (ih' d) text

theorem matchLoop_eq (re text : List UInt8) :
    matchLoop re text = matchstar (matchhere re) dot text := by
  induction text with
  | nil => rfl
  | cons x _ ih => simp [matchLoop, matchstar, ih]

/-- `match` finds a part of the text that the pattern reads, at its beginning after a `^`. -/
theorem matchRe_iff (re text : List UInt8) : matchRe re text = true ↔
    if re.head? = some caret then ∃ u rest, text = u ++ rest ∧ Reads re.tail u rest
    else ∃ pre u rest, text = pre ++ (u ++ rest) ∧ Reads re u rest := by
  rw [matchRe]
  split
  · exact matchhere_iff re.tail text
  rw [matchLoop_eq, matchstar_iff]
  constructor
  · rintro ⟨pre, rest, rfl, _, found⟩
    obtain ⟨u, rest, rfl, reads⟩ := (matchhere_iff re rest).mp found
    exact ⟨pre, u, rest, rfl, reads⟩
  · rintro ⟨pre, u, rest, rfl, reads⟩
    exact ⟨pre, _, rfl, fun _ _ => .inr rfl, (matchhere_iff re _).mpr ⟨u, rest, rfl, reads⟩⟩

/-! ### The buffer -/

def newline : UInt8 := 10

/-- The inner loop of `grep` on the bytes from `p` on, of which `line` has been searched for the
end of the line: what is written, and what is left from `p` on.  `strchr` stops at a NUL. -/
def scan (pattern : List UInt8) : (line bytes : List UInt8) → List UInt8 × List UInt8
  | line, [] => ([], line)
  | line, x :: bytes =>
    if x = 0 then ([], line ++ x :: bytes)
    else if x = newline then
      let found := if matchRe pattern line then line ++ [newline] else []
      let (out, rest) := scan pattern [] bytes
      (found ++ out, rest)
    else scan pattern (line ++ [x]) bytes

/-- `grep` with the bytes kept in `buf` and those not yet read.  Each `read` returns at least one
byte if there is room and input, and `read` says how many. -/
def grep (pattern : List UInt8) (read : Nat → Nat) (kept input : List UInt8) : List UInt8 :=
  let n := min (max 1 (read input.length)) (min (1023 - kept.length) input.length)
  if n = 0 then []
  else
    let (out, rest) := scan pattern [] (kept ++ input.take n)
    out ++ grep pattern read rest (input.drop n)
termination_by input.length
decreasing_by
  rw [List.length_drop]
  omega

/-- The lines of a text, each with the newline at its end. -/
def unlines (lines : List (List UInt8)) : List UInt8 := (lines.map (· ++ [newline])).flatten

/-- The line and its newline fit into the buffer. -/
def fits (line : List UInt8) : Bool := line.length < 1023

/-- What is to be written of a text: its matching lines, a last one that has no newline with or
without one. -/
def WritesMatches (pattern : List UInt8) (lines : List (List UInt8)) (last out : List UInt8) :
    Prop :=
  ∃ ending, (ending = [] ∨ ending = [newline]) ∧
    out = unlines (lines.filter (matchRe pattern)) ++
      if last ≠ [] ∧ matchRe pattern last then last ++ ending else []

theorem unlines_cons (line : List UInt8) (lines : List (List UInt8)) :
    unlines (line :: lines) = line ++ newline :: unlines lines := by
  simp [unlines]

theorem unlines_append (lines others : List (List UInt8)) :
    unlines (lines ++ others) = unlines lines ++ unlines others := by
  simp [unlines]

theorem unlines_eq_nil {lines : List (List UInt8)} : unlines lines = [] ↔ lines = [] := by
  cases lines with
  | nil => simp [unlines]
  | cons _ _ => simp [unlines_cons]

variable {lines : List (List UInt8)} {kept input last : List UInt8}

/-- Bytes without newline in front of a text are the beginning of its first line. -/
theorem within_line (lt : newline ∉ kept) (split : kept ++ input = unlines lines ++ last) :
    lines = [] ∧ kept ++ input = last ∨
      ∃ more others, lines = (kept ++ more) :: others ∧
        input = more ++ newline :: (unlines others ++ last) := by
  cases lines with
  | nil => exact .inl ⟨rfl, split⟩
  | cons _ others =>
    rw [unlines_cons, List.append_assoc, List.cons_append, List.append_eq_append_iff] at split
    obtain ⟨more, rfl, rest⟩ | ⟨past, rfl, rest⟩ := split
    · exact .inr ⟨more, others, rfl, rest⟩
    cases past with
    | nil => exact .inr ⟨[], others, by simp, rest.symm⟩
    | cons x _ =>
      obtain ⟨rfl, -⟩ := List.cons.inj rest
      simp at lt

/-- What one pass over the buffer writes and keeps; the lines it completes fit. -/
theorem scan_spec (pattern : List UInt8) {line bytes : List UInt8}
    (clean : ∀ l ∈ lines, newline ∉ l) (tail : newline ∉ last) (nulFree : 0 ∉ bytes)
    (lt : newline ∉ line) (room : (line ++ bytes).length ≤ 1023)
    (split : line ++ (bytes ++ input) = unlines lines ++ last) :
    ∃ done todo rest, lines = done ++ todo ∧ (∀ l ∈ done, fits l = true) ∧ newline ∉ rest ∧
      rest.length ≤ 1023 ∧ rest ++ input = unlines todo ++ last ∧
      scan pattern line bytes = (unlines (done.filter (matchRe pattern)), rest) := by
  induction bytes generalizing line lines with
  | nil =>
    rw [List.append_nil] at room
    exact ⟨[], lines, line, rfl, by simp, lt, room, split, rfl⟩
  | cons x _ ih =>
    rw [List.mem_cons, not_or] at nulFree
    rw [scan, if_neg (Ne.symm nulFree.1)]
    by_cases ends : x = newline
    · subst ends
      obtain ⟨rfl, whole⟩ | ⟨more, others, rfl, after⟩ := within_line lt split
      · simp [← whole] at tail
      have whole : more = [] := by
        have inner := (List.forall_mem_cons.mp clean).1
        cases more with
        | nil => rfl
        | cons y _ =>
          obtain ⟨rfl, -⟩ := List.cons.inj after
          simp at inner
      subst whole
      rw [List.length_append, List.length_cons] at room
      obtain ⟨done, todo, rest, rfl, short, inner, left, kept, out⟩ :=
        ih (List.forall_mem_cons.mp clean).2 nulFree.2 List.not_mem_nil (by simp; omega)
          (List.cons.inj after).2
      have first : fits line = true := by simp [fits]; omega
      refine ⟨line :: done, todo, rest, by simp, List.forall_mem_cons.mpr ⟨first, short⟩, inner,
        left, kept, ?_⟩
      rw [if_pos rfl, out, List.filter_cons]
      split_ifs <;> simp [unlines_cons]
    · rw [if_neg ends]
      have still : newline ∉ line ++ [x] := by simpa [lt] using Ne.symm ends
      exact ih clean nulFree.2 still (by simpa using room) (by simpa using split)

theorem grep_nil (pattern : List UInt8) (read : Nat → Nat) (kept : List UInt8) :
    grep pattern read kept [] = [] := by
  rw [grep]
  simp

/-- However the reads split the input, the lines in front of the first one that does not fit are
searched, and nothing else is. -/
theorem grep_lines (pattern : List UInt8) (read : Nat → Nat)
    (clean : ∀ l ∈ lines, newline ∉ l) (tail : newline ∉ last)
    (nulFree : 0 ∉ unlines lines ++ last) (lt : newline ∉ kept) (room : kept.length ≤ 1023)
    (split : kept ++ input = unlines lines ++ last) :
    grep pattern read kept input = unlines ((lines.takeWhile fits).filter (matchRe pattern)) := by
  induction length : input.length using Nat.strongRecOn generalizing kept input lines with
  | ind _ ih =>
  subst length
  rw [grep]
  generalize size : min (max 1 (read input.length)) (min (1023 - kept.length) input.length) = n
  by_cases stop : n = 0
  · -- Without input no line is left to end, and a full buffer is a line that does not fit.
    rw [if_pos stop]
    obtain ⟨rfl, -⟩ | ⟨more, others, rfl, after⟩ := within_line lt split
    · rfl
    have pending : 0 < input.length := List.length_pos_iff.mpr (by simp [after])
    have long : fits (kept ++ more) = false := by
      simp [fits]
      omega
    rw [List.takeWhile_cons_of_neg (by simp [long])]
    rfl
  rw [if_neg stop]
  rw [← List.take_append_drop n input, ← List.append_assoc] at split
  have nulFreeBytes : 0 ∉ kept ++ input.take n := fun mem =>
    nulFree (split ▸ List.mem_append_left _ mem)
  have filled : (kept ++ input.take n).length ≤ 1023 := by
    rw [List.length_append, List.length_take]
    omega
  obtain ⟨done, todo, rest, rfl, short, inner, left, again, out⟩ :=
    scan_spec pattern clean tail nulFreeBytes List.not_mem_nil filled split
  rw [unlines_append, List.append_assoc, List.mem_append, not_or] at nulFree
  have shorter : (input.drop n).length < input.length := by
    rw [List.length_drop]
    omega
  have later := ih _ shorter (fun l mem => clean l (List.mem_append_right done mem))
    nulFree.2 inner left again rfl
  rw [List.takeWhile_append_of_pos short, List.filter_append, unlines_append]
  simp only [out, later]

/-- `grep` writes the matching lines of a text exactly if none matches from the first line on that
does not fit into the buffer or has no newline. -/
theorem grep_writes_matches (pattern : List UInt8) (read : Nat → Nat) (lines : List (List UInt8))
    (last : List UInt8) (clean : ∀ l ∈ last :: lines, newline ∉ l)
    (nulFree : 0 ∉ unlines lines ++ last) :
    WritesMatches pattern lines last (grep pattern read [] (unlines lines ++ last)) ↔
      (∀ l ∈ lines.dropWhile fits, matchRe pattern l = false) ∧
        (last ≠ [] → matchRe pattern last = false) := by
  rw [List.forall_mem_cons] at clean
  rw [grep_lines pattern read clean.2 clean.1 nulFree List.not_mem_nil (Nat.zero_le _)
    (List.nil_append _)]
  have parts : unlines (lines.filter (matchRe pattern)) =
      unlines ((lines.takeWhile fits).filter (matchRe pattern)) ++
        unlines ((lines.dropWhile fits).filter (matchRe pattern)) := by
    rw [← unlines_append, ← List.filter_append, List.takeWhile_append_dropWhile]
  rw [WritesMatches, parts]
  constructor
  · rintro ⟨ending, -, same⟩
    rw [List.append_assoc, List.self_eq_append_right, List.append_eq_nil_iff, unlines_eq_nil,
      List.filter_eq_nil_iff] at same
    refine ⟨by simpa using same.1, fun here => ?_⟩
    by_contra found
    have wanted : last ≠ [] ∧ matchRe pattern last = true := ⟨here, by simpa using found⟩
    simp [wanted] at same
  rintro ⟨dropped, unmatched⟩
  have none : (lines.dropWhile fits).filter (matchRe pattern) = [] :=
    List.filter_eq_nil_iff.mpr (by simpa using dropped)
  refine ⟨[], .inl rfl, ?_⟩
  rw [none, if_neg (fun wanted => by simp [unmatched wanted.1] at wanted)]
  simp [unlines]

theorem grep_writes_matches_unfinished :
    WritesMatches [97] [[97]] [98] (grep [97] id [] (unlines [[97]] ++ [98])) :=
  (grep_writes_matches [97] id [[97]] [98] (by simp [newline]) (by decide)).mpr
    (by decide)

/-- A last line without newline is not written. -/
theorem grep_drops_last :
    matchRe [97] [97] = true ∧ ∀ read, grep [97] read [] [97] = [] := by
  refine ⟨rfl, fun read => ?_⟩
  rw [grep]
  simp [scan, newline, grep_nil]

end Grep

end CustomXv6

/-
Module: CustomXv6.User.ShellParser
Purpose: The parser of the shell accepts exactly the command lines of the grammar.
Trusted boundary: none
Main exports: Shell.gettoken_spec, Shell.parsecmd_correct
-/
import CustomXv6.User.Shell
import Mathlib.Data.List.TakeWhile

namespace CustomXv6

open Hoare
open Function

namespace Shell

/-! ### Tokens -/

variable {s : List UInt8} {ts : List (Token Slice)}
variable {t : Token Slice} {c : UInt8} {rest : List (Token Slice)} {fd fuel mode : Nat}
  {fail : Stop → Prop} {toks : List UInt8} {post : List (Redir Slice) → List UInt8 → Prop}

/-- The kind of a token, as `gettoken` returns it. -/
def Token.code {W : Type} : Token W → UInt8
  | .word _ => 97
  | .input => 60
  | .output => 62
  | .append => 43
  | .bar => 124
  | .amp => 38
  | .semi => 59
  | .opened => 40
  | .closed => 41

/-- The byte with which a token starts that is no word. -/
def Token.first {W : Type} : Token W → Option UInt8
  | .word _ => none
  | .input => some 60
  | .output => some 62
  | .append => some 62
  | .bar => some 124
  | .amp => some 38
  | .semi => some 59
  | .opened => some 40
  | .closed => some 41

/-- The first token starts with one of the bytes. -/
def starts {W : Type} (toks : List UInt8) (ts : List (Token W)) : Bool :=
  (ts.head?.bind Token.first).any toks.contains

theorem symbolToken_cases (here : symbolToken c = some t) :
    t.first = some c ∧ t.code = c ∧ (∀ w, t ≠ .word w) ∧
      (c = 124 ∨ c = 40 ∨ c = 41 ∨ c = 59 ∨ c = 38 ∨ c = 60) := by
  unfold symbolToken at here
  split_ifs at here with is60 is124 is38 is59 is40 is41 <;> cases here <;> subst_vars <;>
    simp [Token.first, Token.code]

theorem symbolToken_blank (here : symbolToken c = some t) : c ∉ whitespace := by
  obtain ⟨_, _, _, rfl | rfl | rfl | rfl | rfl | rfl⟩ := symbolToken_cases here <;> decide

@[simp] theorem deref_cons (c : UInt8) (s : List UInt8) : deref (c :: s) = c := rfl

theorem skip_of_not_blank (visible : c ∉ whitespace) : skip (c :: s) = c :: s := by
  unfold skip
  rw [List.dropWhile_cons_of_neg]
  rwa [List.contains_iff_mem]

/-- What is left of a string after the blanks at its start, with its first token. -/
inductive Head : List UInt8 → List (Token Slice) → Prop where
  | done : Head [] []
  | symbol {c : UInt8} {s : List UInt8} {t : Token Slice} {ts : List (Token Slice)}
      (here : symbolToken c = some t) (rest : Lex s ts) : Head (c :: s) (t :: ts)
  | output {s : List UInt8} {ts : List (Token Slice)} (single : s.head? ≠ some 62)
      (rest : Lex s ts) : Head (62 :: s) (.output :: ts)
  | append {s : List UInt8} {ts : List (Token Slice)} (rest : Lex s ts) :
      Head (62 :: 62 :: s) (.append :: ts)
  | word {c : UInt8} {w s : List UInt8} {ts : List (Token Slice)}
      (chars : ∀ d ∈ c :: w, WordChar d)
      (longest : ∀ d, s.head? = some d → ¬ WordChar d) (rest : Lex s ts) :
      Head (c :: (w ++ s)) (.word ⟨c :: (w ++ s), s⟩ :: ts)

/-- Blanks before a token are skipped. -/
theorem Lex.skip (lex : Lex s ts) : Head (skip s) ts ∧ Lex (Shell.skip s) ts := by
  induction lex with
  | done => exact ⟨.done, .done⟩
  | @space c s _ _ _ ih =>
    have same : Shell.skip (c :: s) = Shell.skip s := by
      unfold Shell.skip
      rw [List.dropWhile_cons_of_pos]
      rwa [List.contains_iff_mem]
    rw [same]
    exact ih
  | symbol here rest =>
    rw [skip_of_not_blank (symbolToken_blank here)]
    exact ⟨.symbol here rest, .symbol here rest⟩
  | output single rest =>
    exact ⟨.output single rest, .output single rest⟩
  | append rest =>
    rw [skip_of_not_blank (by decide)]
    exact ⟨.append rest, .append rest⟩
  | @word w _ _ ne chars longest rest _ =>
    cases w with
    | nil => exact (ne rfl).elim
    | cons c =>
      have visible := (chars c (.head _)).2.1
      rw [List.cons_append, skip_of_not_blank visible]
      exact ⟨.word chars longest rest, .word ne chars longest rest⟩

/-- No token starts with NUL. -/
theorem Lex.head_ne_zero (lex : Lex s ts) : s.head? ≠ some 0 := by
  cases lex with
  | done => exact nofun
  | space blank =>
    intro zero
    cases zero
    exact absurd blank (by decide)
  | symbol here =>
    intro zero
    cases zero
    cases here
  | output => exact nofun
  | append => exact nofun
  | @word w _ _ ne chars _ _ =>
    cases w with
    | nil => exact (ne rfl).elim
    | cons =>
      intro zero
      cases zero
      exact (chars 0 (.head _)).1 rfl

/-- The loop of `gettoken` over a word stops at its end. -/
theorem dropWhile_word {w : List UInt8} (chars : ∀ d ∈ w, WordChar d)
    (longest : ∀ d, s.head? = some d → ¬ WordChar d) (rest : Lex s ts) :
    (w ++ s).dropWhile (fun c => !whitespace.contains c && !symbols.contains c) = s := by
  induction w with
  | nil =>
    cases s with
    | nil => rfl
    | cons d =>
      rw [List.nil_append, List.dropWhile_cons_of_neg]
      intro inWord
      rw [Bool.and_eq_true, Bool.not_eq_true', Bool.not_eq_true'] at inWord
      apply longest d rfl
      refine ⟨fun zero => rest.head_ne_zero (congrArg some zero), fun blank => ?_, fun symbol => ?_⟩
      · exact absurd (List.contains_iff_mem.mpr blank) (by rw [inWord.1]; decide)
      · exact absurd (List.contains_iff_mem.mpr symbol) (by rw [inWord.2]; decide)
  | cons c _ ih =>
    obtain ⟨_, notBlank, notSymbol⟩ := chars c (.head _)
    rw [List.cons_append, List.dropWhile_cons_of_pos]
    · exact ih fun d mem => chars d (.tail c mem)
    rw [Bool.and_eq_true, Bool.not_eq_true', Bool.not_eq_true']
    constructor
    · exact Bool.eq_false_iff.mpr fun blank => notBlank (List.contains_iff_mem.mp blank)
    · exact Bool.eq_false_iff.mpr fun symbol => notSymbol (List.contains_iff_mem.mp symbol)

/-- What `gettoken` returns on a string with these tokens. -/
def Taken (ts : List (Token Slice)) (r : UInt8 × Slice) (s' : List UInt8) : Prop :=
  match ts with
  | [] => r.1 = 0 ∧ Lex s' []
  | t :: rest => r.1 = t.code ∧ (∀ w, t = .word w → r.2 = w) ∧ Lex s' rest

/-- `gettoken` takes the first token. -/
theorem gettoken_spec (lex : Lex s ts) : wp gettoken (Taken ts) Never s := by
  unfold gettoken
  simp only [wp_bind, wp_get]
  have head := lex.skip.1
  generalize skip s = q at head ⊢
  cases head with
  | done => exact ⟨rfl, .done⟩
  | @symbol c _ _ _ here rest =>
    obtain ⟨_, code, noWord, which⟩ := symbolToken_cases here
    have ne0 : c ≠ 0 := by
      rintro rfl
      revert which
      decide
    simp only [deref_cons, advance, ne0, which, ↓reduceIte]
    exact ⟨code.symm, fun w isWord => absurd isWord (noWord w), rest.skip.2⟩
  | @output s ts single rest =>
    have next : deref s ≠ 62 := by
      intro again
      cases s with
      | nil => exact absurd again (by decide)
      | cons => exact single (congrArg some again)
    simp only [deref_cons, advance, ↓reduceIte, pure_bind, next]
    refine ⟨rfl, ?_, rest.skip.2⟩
    intro w isWord
    cases isWord
  | append rest =>
    refine ⟨rfl, ?_, rest.skip.2⟩
    intro w isWord
    cases isWord
  | @word c _ _ _ chars longest rest =>
    have ends := dropWhile_word chars longest rest
    obtain ⟨ne0, _, notSymbol⟩ := chars c (.head _)
    simp only [symbols, List.mem_cons, List.not_mem_nil, not_or, or_false] at notSymbol
    obtain ⟨not60, not124, not62, not38, not59, not40, not41⟩ := notSymbol
    have noSymbol : ¬ (c = 124 ∨ c = 40 ∨ c = 41 ∨ c = 59 ∨ c = 38 ∨ c = 60) := by
      rintro (is | is | is | is | is | is)
      exacts [not124 is, not40 is, not41 is, not59 is, not38 is, not60 is]
    simp only [deref_cons, ne0, noSymbol, not62, ↓reduceIte]
    rw [← List.cons_append, ends]
    exact ⟨rfl, fun _ isWord => by cases isWord; rfl, rest.skip.2⟩

-- A test of all bytes of a string goes through the string, not through all bytes.
instance decidableAllBytes (l : List UInt8) (P : UInt8 → Prop) [DecidablePred P] :
    Decidable (∀ c ∈ l, P c) :=
  List.decidableBAll P l

/-- `peek` looks at the first byte of the first token. -/
theorem peek_spec (ofSymbols : ∀ c ∈ toks, c ∈ symbols) (lex : Lex s ts) :
    wp (peek toks) (fun found s' => found = starts toks ts ∧ Lex s' ts) Never s := by
  obtain ⟨head, skipped⟩ := lex.skip
  unfold peek
  refine ⟨?_, skipped⟩
  generalize skip s = q at head ⊢
  cases head with
  | done => rfl
  | @symbol c _ _ _ here _ =>
    obtain ⟨first, _, _, which⟩ := symbolToken_cases here
    have ne0 : c ≠ 0 := by
      rintro rfl
      revert which
      decide
    simp [starts, deref, first, ne0]
  | output => simp [starts, deref, Token.first]
  | append => simp [starts, deref, Token.first]
  | @word c _ _ _ chars _ _ =>
    have foreign : c ∉ toks := fun mem =>
      (chars c (.head _)).2.2 (ofSymbols c mem)
    simp [starts, deref, Token.first, foreign]

/-! ### What follows -/

/-- The only errors left: the panics. -/
def Panicked (e : Stop) : Prop := ∃ message, e = .panic message

@[simp] theorem starts_nil (toks : List UInt8) : starts toks ([] : List (Token Slice)) = false :=
  rfl

/-- At the end, or in front of a token that starts with one of the bytes. -/
def Follow (toks : List UInt8) (rest : List (Token Slice)) : Prop :=
  rest = [] ∨ starts toks rest = true

theorem Follow.mono {more : List UInt8} (follow : Follow toks rest) (within : toks ⊆ more) :
    Follow more rest := by
  cases follow with
  | inl ended => exact .inl ended
  | inr found =>
    right
    rw [starts, Option.any_eq_true] at found ⊢
    obtain ⟨c, first, mem⟩ := found
    exact ⟨c, first, List.contains_iff_mem.mpr (within (List.contains_iff_mem.mp mem))⟩

/-- A token that starts with one of some bytes starts with none of others. -/
theorem Follow.not_starts {other : List UInt8} (follow : Follow toks rest)
    (apart : ∀ c ∈ toks, c ∉ other) : starts other rest = false := by
  cases follow with
  | inl ended => rw [ended, starts_nil]
  | inr found =>
    rw [Bool.eq_false_iff]
    intro both
    rw [starts, Option.any_eq_true] at found both
    obtain ⟨c, first, mem⟩ := found
    obtain ⟨d, first', member'⟩ := both
    obtain rfl : c = d := Option.some.inj (first.symm.trans first')
    exact apart c (List.contains_iff_mem.mp mem) (List.contains_iff_mem.mp member')

/-- The tokens in front of which `peek` with one byte stops, for bytes of one token only. -/
theorem starts_single (here : symbolToken c = some t) (found : starts [c] ts = true) :
    ∃ rest, ts = t :: rest := by
  cases ts with
  | nil => cases found
  | cons u rest =>
    refine ⟨rest, ?_⟩
    obtain ⟨_, _, _, rfl | rfl | rfl | rfl | rfl | rfl⟩ := symbolToken_cases here <;>
      cases here <;> cases u <;> first | rfl | cases found

theorem code_ne_zero (t : Token Slice) : t.code ≠ 0 := by
  cases t <;> simp [Token.code]

theorem code_eq_word (word : t.code = 97) : ∃ w, t = .word w := by
  cases t with
  | word w => exact ⟨w, rfl⟩
  | _ => exact absurd word (by decide)

/-- The tokens in front of which the loop of `parseredirs` goes on. -/
theorem starts_redir (found : starts [60, 62] ts = true) :
    ∃ t rest mode fd, ts = t :: rest ∧ RedirOp t mode fd := by
  cases ts with
  | nil => cases found
  | cons t rest =>
    cases t with
    | input => exact ⟨_, rest, _, _, rfl, .input⟩
    | output => exact ⟨_, rest, _, _, rfl, .output⟩
    | append => exact ⟨_, rest, _, _, rfl, .append⟩
    | _ => cases found

theorem RedirOp.starts (op : RedirOp t mode fd) (rest : List (Token Slice)) :
    starts [60, 62] (t :: rest) = true := by
  cases op <;> rfl

theorem RedirOp.redirOf (op : RedirOp t mode fd) (file : Slice) :
    redirOf t.code file = [⟨file, mode, fd⟩] := by
  cases op <;> rfl

/-! ### Redirections, words and `&` -/

/-- One round of the loop of `parseredirs`. -/
theorem parseredirs_round {w : Slice} (op : RedirOp t mode fd) (lex : Lex s (t :: .word w :: ts))
    (later : ∀ s', Lex s' ts →
      wp (parseredirs fuel) (fun redirs => post (⟨w, mode, fd⟩ :: redirs)) fail s') :
    wp (parseredirs (fuel + 1)) post fail s := by
  rw [parseredirs, wp_bind]
  apply wp_never (peek_spec (by decide) lex)
  rintro _ _ ⟨rfl, lex₁⟩
  rw [if_pos (op.starts _), wp_bind]
  apply wp_never (gettoken_spec lex₁)
  rintro ⟨_, _⟩ _ ⟨code, _, lex₂⟩
  dsimp only at code ⊢
  rw [code, wp_bind]
  apply wp_never (gettoken_spec lex₂)
  rintro ⟨next, _⟩ s₃ ⟨code', word, lex₃⟩
  have isWord : ¬ next ≠ 97 := not_not.mpr code'
  rw [if_neg isWord, word w rfl, op.redirOf, wp_bind]
  exact later s₃ lex₃

/-- The loop of `parseredirs` ends in front of any other token. -/
theorem parseredirs_ends (lex : Lex s ts) (ends : starts [60, 62] ts = false)
    (later : ∀ s', Lex s' ts → post [] s') : wp (parseredirs (fuel + 1)) post fail s := by
  rw [parseredirs, wp_bind]
  apply wp_never (peek_spec (by decide) lex)
  rintro _ s₁ ⟨rfl, lex₁⟩
  rw [if_neg (Bool.eq_false_iff.mp ends)]
  exact later s₁ lex₁

/-- The loop of `parseredirs` panics when no word follows. -/
theorem parseredirs_panics (op : RedirOp t mode fd) (lex : Lex s (t :: ts))
    (missing : ∀ w rest, ts ≠ .word w :: rest) : wp (parseredirs (fuel + 1)) post Panicked s := by
  rw [parseredirs, wp_bind]
  apply wp_never (peek_spec (by decide) lex)
  rintro _ _ ⟨rfl, lex₁⟩
  rw [if_pos (op.starts _), wp_bind]
  apply wp_never (gettoken_spec lex₁)
  rintro ⟨_, _⟩ _ ⟨_, _, lex₂⟩
  rw [wp_bind]
  apply wp_never (gettoken_spec lex₂)
  rintro ⟨next, _⟩ _ taken
  have other : next ≠ 97 := by
    rintro rfl
    cases ts with
    | nil => exact absurd taken.1 (by simp)
    | cons _ rest =>
      obtain ⟨w, rfl⟩ := code_eq_word taken.1.symm
      exact missing w rest rfl
  dsimp only
  rw [if_pos other]
  exact ⟨_, rfl⟩

/-- `parseredirs` takes a list of redirections, and stops with a panic otherwise. -/
theorem parseredirs_sound (fuel : Nat) : ∀ {s : List UInt8} {ts : List (Token Slice)},
    Lex s ts → ts.length < fuel →
    wp (parseredirs fuel) (fun redirs s' => ∃ used rest, ts = used ++ rest ∧
      Redirs used redirs ∧ Lex s' rest) Panicked s := by
  induction fuel with
  | zero => exact fun _ enough => absurd enough (Nat.not_lt_zero _)
  | succ _ ih =>
    intro s ts lex enough
    cases found : starts [60, 62] ts with
    | false => exact parseredirs_ends lex found fun s' lex' => ⟨[], ts, rfl, .nil, lex'⟩
    | true =>
      obtain ⟨_, rest, _, _, rfl, op⟩ := starts_redir found
      by_cases file : ∃ w rest', rest = .word w :: rest'
      · obtain ⟨_, _, rfl⟩ := file
        rw [List.length_cons, List.length_cons] at enough
        apply parseredirs_round op lex
        intro _ lex₁
        apply wp_imp (ih lex₁ (by omega))
        rintro _ _ ⟨used, rest, rfl, derived, lex₂⟩
        exact ⟨_ :: _ :: used, rest, rfl, .cons op derived, lex₂⟩
      · exact parseredirs_panics op lex fun w rest' same => file ⟨w, rest', same⟩

variable {used : List (Token Slice)}

/-- `parseredirs` takes every list of redirections that ends there. -/
theorem parseredirs_complete {redirs : List (Redir Slice)}
    (derived : Redirs used redirs) (ends : starts [60, 62] rest = false) :
    ∀ {fuel : Nat} {s : List UInt8}, Lex s (used ++ rest) → used.length < fuel →
    wp (parseredirs fuel) (fun r s' => r = redirs ∧ Lex s' rest) Never s := by
  induction derived with
  | nil =>
    intro fuel s lex enough
    obtain ⟨_, rfl⟩ := Nat.exists_eq_add_one.mpr enough
    exact parseredirs_ends lex ends fun s' lex' => ⟨rfl, lex'⟩
  | cons op _ ih =>
    intro _ s lex enough
    rw [List.length_cons, List.length_cons] at enough
    obtain ⟨_, rfl⟩ := Nat.exists_eq_add_one.mpr (Nat.zero_lt_of_lt enough)
    apply parseredirs_round op lex
    intro _ lex₁
    apply wp_imp (ih lex₁ (by omega))
    rintro _ _ ⟨rfl, lex₂⟩
    exact ⟨rfl, lex₂⟩

variable {argv : List Slice} {α : Type} {part : Part}

/-- Redirections in front of words. -/
theorem Redirs.args {front : List (Token Slice)} {first redirs : List (Redir Slice)}
    (derived : Redirs front first) (args : Args ts argv redirs) :
    Args (front ++ ts) argv (first ++ redirs) := by
  induction derived with
  | nil => exact args
  | cons op _ ih => exact .redir op ih

/-- The loop of `parseexec` takes words and redirections. -/
theorem parseargs_sound (fuel : Nat) : ∀ {s : List UInt8} {ts : List (Token Slice)}
    {argv : List Slice} {redirs : List (Redir Slice)}, Lex s ts → ts.length < fuel →
    argv.length ≤ 9 →
    wp (parseargs fuel argv redirs) (fun r s' => ∃ used rest words more, ts = used ++ rest ∧
      Args used words more ∧ r = (argv ++ words, redirs ++ more) ∧ r.1.length ≤ 9 ∧
      Lex s' rest) Panicked s := by
  induction fuel with
  | zero => exact fun _ enough => absurd enough (Nat.not_lt_zero _)
  | succ fuel ih =>
    intro s ts argv redirs lex enough few
    have stops : ∀ s', Lex s' ts → ∃ used rest words more, ts = used ++ rest ∧
        Args used words more ∧ (argv, redirs) = (argv ++ words, redirs ++ more) ∧
        argv.length ≤ 9 ∧ Lex s' rest := by
      intro _ lex'
      refine ⟨[], ts, [], [], rfl, .nil, ?_, few, lex'⟩
      rw [List.append_nil, List.append_nil]
    rw [parseargs, wp_bind]
    apply wp_never (peek_spec (by decide) lex)
    rintro _ s₁ ⟨rfl, lex₁⟩
    split
    · exact stops s₁ lex₁
    rw [wp_bind]
    apply wp_never (gettoken_spec lex₁)
    rintro ⟨_, word⟩ s₂ taken
    cases ts with
    | nil =>
      obtain ⟨code, lex₂⟩ := taken
      dsimp only at code ⊢
      rw [if_pos code]
      exact stops s₂ lex₂
    | cons t _ =>
      obtain ⟨code, isWord, lex₂⟩ := taken
      dsimp only at code isWord ⊢
      subst code
      rw [if_neg (code_ne_zero t)]
      split
      · exact ⟨_, rfl⟩
      rename_i plain
      split
      · exact ⟨_, rfl⟩
      rename_i room
      obtain ⟨w, rfl⟩ := code_eq_word (not_not.mp plain)
      obtain rfl : word = w := isWord w rfl
      change ¬ 10 ≤ argv.length + 1 at room
      rw [List.length_cons] at enough
      apply wp_seq (parseredirs_sound fuel lex₂ (by omega))
      rintro first _ ⟨front, _, rfl, derived, lex₃⟩
      rw [List.length_append] at enough
      apply wp_imp (ih lex₃ (by omega)
        (by rw [List.length_append, List.length_singleton]; omega))
      rintro r _ ⟨used, rest, words, more, rfl, args, rfl, few', lex₄⟩
      refine ⟨.word word :: (front ++ used), rest, word :: words, first ++ more, ?_,
        .word (derived.args args), ?_, few', lex₄⟩
      · rw [List.cons_append, List.append_assoc]
      · rw [List.append_assoc, List.append_assoc, List.singleton_append]

/-- `parseredirs` and `parseexec` take all words and redirections of a simple command. -/
theorem parseargs_complete {words : List Slice}
    {more : List (Redir Slice)} (args : Args used words more)
    (follow : Follow [124, 41, 38, 59] rest) :
    ∀ {fuel fuel' : Nat} {s : List UInt8} {argv : List Slice} {redirs : List (Redir Slice)},
    Lex s (used ++ rest) → used.length < fuel → used.length < fuel' →
    argv.length + words.length ≤ 9 →
    wp (do let first ← parseredirs fuel; parseargs fuel' argv (redirs ++ first))
      (fun r s' => r = (argv ++ words, redirs ++ more) ∧ Lex s' rest) Never s := by
  induction args with
  | nil =>
    intro fuel fuel' s argv redirs lex enough enough' few
    apply wp_seq (parseredirs_complete .nil (follow.not_starts (by decide)) lex enough)
    rintro first s₁ ⟨rfl, lex₁⟩
    cases fuel' with
    | zero => exact absurd enough' (Nat.not_lt_zero _)
    | succ =>
      apply wp_seq (peek_spec (by decide) lex₁)
      rintro found s₂ ⟨rfl, lex₂⟩
      cases follow with
      | inr starts =>
        rw [starts, if_pos rfl, List.append_nil, List.append_nil]
        exact ⟨rfl, lex₂⟩
      | inl ended =>
        subst ended
        apply wp_seq (gettoken_spec lex₂)
        rintro ⟨tok, word⟩ s₃ ⟨code, lex₃⟩
        dsimp only at code ⊢
        rw [if_pos code, List.append_nil, List.append_nil]
        exact ⟨rfl, lex₃⟩
  | @redir _ mode fd w _ _ _ op _ ih =>
    intro fuel fuel' s argv redirs lex enough enough' few
    rw [List.length_cons, List.length_cons] at enough enough'
    obtain ⟨fuel, rfl⟩ := Nat.exists_eq_add_one.mpr (Nat.zero_lt_of_lt enough)
    rw [wp_bind]
    apply parseredirs_round op lex
    intro s₁ lex₁
    -- From here on the redirection counts as one that was there before.
    have later := @ih fuel fuel' s₁ argv (redirs ++ [⟨w, mode, fd⟩]) lex₁
      (by omega) (by omega) few
    rw [wp_bind] at later
    apply wp_imp later
    intro first s₂ run
    rw [List.append_assoc] at run
    apply wp_imp run
    rintro r s₃ ⟨rfl, lex₃⟩
    rw [List.append_assoc]
    exact ⟨rfl, lex₃⟩
  | @word w _ _ _ _ ih =>
    intro _ fuel' s argv _ lex enough enough' few
    rw [List.length_cons] at enough enough' few
    apply wp_seq (parseredirs_complete .nil rfl lex (by rw [List.length_nil]; omega))
    rintro _ _ ⟨rfl, lex₁⟩
    cases fuel' with
    | zero => exact absurd enough' (Nat.not_lt_zero _)
    | succ =>
      rw [parseargs]
      apply wp_seq (peek_spec (by decide) lex₁)
      rintro _ _ ⟨rfl, lex₂⟩
      apply wp_seq (gettoken_spec lex₂)
      rintro ⟨tok, _⟩ _ ⟨code, word, lex₃⟩
      dsimp only at code word ⊢
      have isWord : ¬ tok ≠ 97 := not_not.mpr code
      rw [if_neg (by rw [code]; exact code_ne_zero _), if_neg isWord,
        if_neg (by change ¬ 10 ≤ argv.length + 1; omega), word w rfl, List.append_nil]
      apply wp_imp (ih lex₃ (by omega) (by omega)
        (by rw [List.length_append, List.length_singleton]; omega))
      rintro r _ ⟨rfl, lex₄⟩
      rw [List.append_assoc, List.singleton_append]
      exact ⟨rfl, lex₄⟩

/-- The loop of `parseline` takes all `&`. -/
theorem parseamps_sound (fuel : Nat) : ∀ {s : List UInt8} {ts : List (Token Slice)}
    {cmd : Cmd Slice}, Lex s ts → ts.length < fuel →
    wp (parseamps fuel cmd) (fun r s' => ∃ n rest, ts = List.replicate n .amp ++ rest ∧
      r = backs n cmd ∧ Lex s' rest) Panicked s := by
  induction fuel with
  | zero => exact fun _ enough => absurd enough (Nat.not_lt_zero _)
  | succ _ ih =>
    intro s ts _ lex enough
    rw [parseamps, wp_bind]
    apply wp_never (peek_spec (by decide) lex)
    rintro found _ ⟨rfl, lex₁⟩
    split
    · rename_i found
      obtain ⟨_, rfl⟩ := starts_single (t := .amp) rfl found
      rw [wp_bind]
      apply wp_never (gettoken_spec lex₁)
      rintro _ _ ⟨_, _, lex₂⟩
      apply wp_imp (ih lex₂ (by simpa using enough))
      rintro r _ ⟨n, rest', rfl, rfl, lex₃⟩
      exact ⟨n + 1, rest', rfl, rfl, lex₃⟩
    · exact ⟨0, ts, rfl, rfl, lex₁⟩

theorem parseamps_complete (n : Nat) (ends : starts [38] rest = false) :
    ∀ {fuel : Nat} {s : List UInt8} {cmd : Cmd Slice}, Lex s (List.replicate n .amp ++ rest) →
    n < fuel →
    wp (parseamps fuel cmd) (fun r s' => r = backs n cmd ∧ Lex s' rest) Never s := by
  induction n with
  | zero =>
    intro fuel s cmd lex enough
    cases fuel with
    | zero => exact absurd enough (Nat.not_lt_zero _)
    | succ =>
      apply wp_seq (peek_spec (by decide) lex)
      rintro found s₁ ⟨rfl, lex₁⟩
      rw [List.replicate_zero, List.nil_append, ends]
      exact ⟨rfl, lex₁⟩
  | succ _ ih =>
    intro fuel s _ lex enough
    cases fuel with
    | zero => exact absurd enough (Nat.not_lt_zero _)
    | succ =>
      rw [parseamps]
      apply wp_seq (peek_spec (by decide) lex)
      rintro _ _ ⟨rfl, lex₁⟩
      apply wp_seq (gettoken_spec lex₁)
      rintro _ _ ⟨_, _, lex₂⟩
      exact ih lex₂ (by omega)

/-! ### Lines, pipes and commands -/

def Part.parse : Part → (fuel : Nat) → ParseM (Cmd Slice)
  | .line => parseline
  | .pipe => parsepipe
  | .exec => parseexec

/-- How many nested calls are enough in front of `n` tokens. -/
def Part.calls : Part → (n : Nat) → Nat
  | .line, n => 4 * n + 4
  | .pipe, n => 4 * n + 3
  | .exec, n => 4 * n + 2

/-- A part of the tokens in front is derived, and the rest of them is left. -/
def Derived (part : Part) (ts : List (Token Slice)) (cmd : Cmd Slice) (s' : List UInt8) : Prop :=
  ∃ used rest, ts = used ++ rest ∧ Derives part used cmd ∧ Lex s' rest

variable {post : α → List UInt8 → Prop}

/-- `peek` and then `gettoken` for a token of one byte. -/
theorem take_symbol {yes no : ParseM α} (here : symbolToken c = some t) (lex : Lex s ts)
    (found : ∀ rest s', ts = t :: rest → Lex s' rest → wp yes post fail s')
    (other : ∀ s', starts [c] ts = false → Lex s' ts → wp no post fail s') :
    wp (do if ← peek [c] then let _ ← gettoken; yes else no) post fail s := by
  rw [wp_bind]
  have ofSymbols : ∀ d ∈ [c], d ∈ symbols := by
    intro d mem
    obtain rfl := List.mem_singleton.mp mem
    obtain ⟨_, _, _, rfl | rfl | rfl | rfl | rfl | rfl⟩ := symbolToken_cases here <;> decide
  apply wp_never (peek_spec ofSymbols lex)
  rintro seen s₁ ⟨rfl, lex₁⟩
  split
  · rename_i seen
    obtain ⟨rest, rfl⟩ := starts_single here seen
    rw [wp_bind]
    apply wp_never (gettoken_spec lex₁)
    rintro _ s₂ ⟨_, _, lex₂⟩
    exact found rest s₂ rfl lex₂
  · rename_i seen
    exact other s₁ (Bool.eq_false_iff.mpr seen) lex₁

/-- `peek` with a panic when the token is not there, and then `gettoken`. -/
theorem need_symbol {next : ParseM α} {message : ParsePanic}
    (here : symbolToken c = some t) (lex : Lex s ts)
    (found : ∀ rest s', ts = t :: rest → Lex s' rest → wp next post fail s')
    (missing : starts [c] ts = false → fail (.panic message)) :
    wp (do if !(← peek [c]) then throw (.panic message) else let _ ← gettoken; next)
      post fail s := by
  have swapped : (do if !(← peek [c]) then throw (Stop.panic message) else
        let _ ← gettoken; next : ParseM α) =
      (do if ← peek [c] then let _ ← gettoken; next else throw (Stop.panic message)) := by
    congr 1
    funext seen
    cases seen <;> rfl
  rw [swapped]
  exact take_symbol here lex found fun s' absent _ => missing absent

section Sound

/-- Every function takes a part of the tokens that its nonterminal derives, with the tree
of the derivation, or panics. -/
def SoundAt (fuel : Nat) : Prop :=
  ∀ {s : List UInt8} {ts : List (Token Slice)}, Lex s ts →
    (∀ part : Part, part.calls ts.length ≤ fuel →
      wp (part.parse fuel) (Derived part ts) Panicked s) ∧
    (4 * ts.length + 1 ≤ fuel → wp (parseblock fuel) (Derived .exec ts) Panicked s)

variable {fuel : Nat} (below : SoundAt fuel)

include below

theorem parseline_sound (lex : Lex s ts) (enough : 4 * ts.length + 4 ≤ fuel + 1) :
    wp (parseline (fuel + 1)) (Derived .line ts) Panicked s := by
  apply wp_seq ((below lex).1 .pipe (by change 4 * _ + 3 ≤ _; omega))
  rintro _ _ ⟨_, _, rfl, pipe, lex₁⟩
  rw [List.length_append] at enough
  apply wp_seq (parseamps_sound fuel lex₁ (by omega))
  rintro _ _ ⟨n, ts₂, rfl, rfl, lex₂⟩
  rw [List.length_append] at enough
  apply take_symbol (t := .semi) rfl lex₂
  · rintro _ s₃ rfl lex₃
    rw [List.length_cons] at enough
    apply wp_seq ((below lex₃).1 .line (by change 4 * _ + 4 ≤ _; omega))
    rintro _ _ ⟨_, rest', rfl, line, lex₄⟩
    refine ⟨_, rest', ?_, .list n pipe line, lex₄⟩
    simp only [List.append_assoc, List.cons_append]
  · rintro _ _ lex₃
    exact ⟨_, ts₂, (List.append_assoc ..).symm, .last n pipe, lex₃⟩

theorem parsepipe_sound (lex : Lex s ts) (enough : 4 * ts.length + 3 ≤ fuel + 1) :
    wp (parsepipe (fuel + 1)) (Derived .pipe ts) Panicked s := by
  apply wp_seq ((below lex).1 .exec (by change 4 * _ + 2 ≤ _; omega))
  rintro _ _ ⟨used, ts₁, rfl, exec, lex₁⟩
  rw [List.length_append] at enough
  apply take_symbol (t := .bar) rfl lex₁
  · rintro _ s₂ rfl lex₂
    rw [List.length_cons] at enough
    apply wp_seq ((below lex₂).1 .pipe (by change 4 * _ + 3 ≤ _; omega))
    rintro _ _ ⟨_, rest', rfl, pipe, lex₃⟩
    refine ⟨_, rest', ?_, .pipe exec pipe, lex₃⟩
    simp only [List.append_assoc, List.cons_append]
  · rintro _ _ lex₂
    exact ⟨used, ts₁, rfl, .single exec, lex₂⟩

theorem parseexec_sound (lex : Lex s ts) (enough : 4 * ts.length + 2 ≤ fuel + 1) :
    wp (parseexec (fuel + 1)) (Derived .exec ts) Panicked s := by
  rw [parseexec, wp_bind]
  apply wp_never (peek_spec (by decide) lex)
  rintro _ _ ⟨rfl, lex₁⟩
  split
  · exact (below lex₁).2 (by omega)
  apply wp_seq (parseredirs_sound fuel lex₁ (by omega))
  rintro _ _ ⟨_, _, rfl, derived, lex₂⟩
  rw [List.length_append] at enough
  rw [wp_bind]
  have noWords : ([] : List Slice).length ≤ 9 := Nat.zero_le 9
  apply wp_imp (parseargs_sound fuel lex₂ (by omega) noWords)
  rintro r _ ⟨_, rest, _, _, rfl, args, rfl, few, lex₃⟩
  exact ⟨_, rest, (List.append_assoc ..).symm, .simple (derived.args args) few, lex₃⟩

theorem parseblock_sound (lex : Lex s ts) (enough : 4 * ts.length + 1 ≤ fuel + 1) :
    wp (parseblock (fuel + 1)) (Derived .exec ts) Panicked s := by
  refine need_symbol (t := .opened) rfl lex ?_ fun _ => ⟨_, rfl⟩
  rintro rest _ rfl lex₁
  rw [List.length_cons] at enough
  apply wp_seq ((below lex₁).1 .line (by change 4 * _ + 4 ≤ _; omega))
  rintro _ _ ⟨_, _, rfl, line, lex₂⟩
  rw [List.length_append] at enough
  refine need_symbol (t := .closed) rfl lex₂ ?_ fun _ => ⟨_, rfl⟩
  rintro _ _ rfl lex₃
  rw [List.length_cons] at enough
  apply wp_seq (parseredirs_sound fuel lex₃ (by omega))
  rintro _ _ ⟨_, rest', rfl, derived, lex₄⟩
  refine ⟨_, rest', ?_, .block line derived, lex₄⟩
  simp only [List.append_assoc, List.cons_append]

end Sound

variable {w : Slice} {input : List UInt8} {used : List (Token Slice)} {cmd : Cmd Slice}
  {redirs : List (Redir Slice)}

theorem parse_sound (fuel : Nat) : SoundAt fuel := by
  induction fuel with
  | zero =>
    intro s ts _
    constructor
    · intro part enough
      cases part <;> exact absurd enough (Nat.not_succ_le_zero _)
    · exact fun enough => absurd enough (Nat.not_succ_le_zero _)
  | succ _ ih =>
    intro s _ lex
    constructor
    · intro part enough
      cases part with
      | line => exact parseline_sound ih lex enough
      | pipe => exact parsepipe_sound ih lex enough
      | exec => exact parseexec_sound ih lex enough
    · exact parseblock_sound ih lex

/-- The bytes with which a token may start behind a nonterminal. -/
def Part.follow : Part → List UInt8
  | .line => [41]
  | .pipe => [41, 38, 59]
  | .exec => [124, 41, 38, 59]

/-- Words and redirections do not start with a parenthesis. -/
theorem Args.not_opened (args : Args used argv redirs) (follow : Follow [124, 41, 38, 59] rest) :
    starts [40] (used ++ rest) = false := by
  cases args with
  | nil => exact follow.not_starts (by decide)
  | redir op => cases op <;> rfl
  | word => rfl

theorem Follow.amps {n : Nat} (follow : Follow Part.pipe.follow rest) :
    Follow Part.pipe.follow (List.replicate n .amp ++ rest) := by
  cases n with
  | zero => exact follow
  | succ => exact .inr rfl

/-- Every derivation is found by the function of its nonterminal when a token follows
that may follow. -/
theorem parse_complete (derives : Derives part used cmd) :
    ∀ {rest : List (Token Slice)} {fuel : Nat} {s : List UInt8}, Follow part.follow rest →
    Lex s (used ++ rest) → part.calls used.length ≤ fuel →
    wp (part.parse fuel) (fun r s' => r = cmd ∧ Lex s' rest) Never s := by
  induction derives with
  | @last _ _ n _ ih =>
    intro rest fuel s follow lex enough
    change 4 * _ + 4 ≤ _ at enough
    rw [List.length_append, List.length_replicate] at enough
    obtain ⟨fuel, rfl⟩ := Nat.exists_eq_add_one.mpr (Nat.zero_lt_of_lt enough)
    rw [List.append_assoc] at lex
    change wp (parseline (fuel + 1)) _ _ _
    rw [parseline, wp_bind]
    have behind : Follow Part.pipe.follow rest := follow.mono (by decide)
    apply wp_imp (ih behind.amps lex (by change 4 * _ + 3 ≤ _; omega))
    rintro r s₁ ⟨rfl, lex₁⟩
    apply wp_seq (parseamps_complete n (follow.not_starts (by decide)) lex₁ (by omega))
    rintro r s₂ ⟨rfl, lex₂⟩
    apply take_symbol (t := .semi) rfl lex₂
    · rintro rest' s₃ rfl lex₃
      cases follow with
      | inl ended => cases ended
      | inr found => cases found
    · exact fun s₃ _ lex₃ => ⟨rfl, lex₃⟩
  | @list _ used' _ _ n _ _ pipeHypothesis lineHypothesis =>
    intro rest fuel s follow lex enough
    change 4 * _ + 4 ≤ _ at enough
    rw [List.length_append, List.length_append, List.length_cons, List.length_replicate] at enough
    obtain ⟨fuel, rfl⟩ := Nat.exists_eq_add_one.mpr (Nat.zero_lt_of_lt enough)
    rw [List.append_assoc, List.append_assoc] at lex
    change wp (parseline (fuel + 1)) _ _ _
    rw [parseline, wp_bind]
    have behind : Follow Part.pipe.follow (.semi :: used' ++ rest) := .inr rfl
    apply wp_imp (pipeHypothesis behind.amps lex (by change 4 * _ + 3 ≤ _; omega))
    rintro r s₁ ⟨rfl, lex₁⟩
    apply wp_seq (parseamps_complete n rfl lex₁ (by omega))
    rintro r s₂ ⟨rfl, lex₂⟩
    apply take_symbol (t := .semi) rfl lex₂
    · rintro rest' s₃ same lex₃
      obtain rfl : used' ++ rest = rest' := List.tail_eq_of_cons_eq same
      apply wp_seq (lineHypothesis follow lex₃ (by change 4 * _ + 4 ≤ _; omega))
      rintro r s₄ ⟨rfl, lex₄⟩
      exact ⟨rfl, lex₄⟩
    · intro s₃ absent
      cases absent
  | @single _ _ _ ih =>
    intro rest fuel s follow lex enough
    change 4 * _ + 3 ≤ _ at enough
    obtain ⟨fuel, rfl⟩ := Nat.exists_eq_add_one.mpr (Nat.zero_lt_of_lt enough)
    change wp (parsepipe (fuel + 1)) _ _ _
    rw [parsepipe, wp_bind]
    have behind : Follow Part.exec.follow rest := follow.mono (by decide)
    apply wp_imp (ih behind lex (by change 4 * _ + 2 ≤ _; omega))
    rintro r s₁ ⟨rfl, lex₁⟩
    apply take_symbol (t := .bar) rfl lex₁
    · rintro rest' s₂ rfl lex₂
      cases follow with
      | inl ended => cases ended
      | inr found => cases found
    · exact fun s₂ _ lex₂ => ⟨rfl, lex₂⟩
  | @pipe _ used' _ _ _ _ execHypothesis pipeHypothesis =>
    intro rest fuel s follow lex enough
    change 4 * _ + 3 ≤ _ at enough
    rw [List.length_append, List.length_cons] at enough
    obtain ⟨fuel, rfl⟩ := Nat.exists_eq_add_one.mpr (Nat.zero_lt_of_lt enough)
    rw [List.append_assoc] at lex
    change wp (parsepipe (fuel + 1)) _ _ _
    apply wp_seq (execHypothesis (.inr rfl) lex (by change 4 * _ + 2 ≤ _; omega))
    rintro r s₁ ⟨rfl, lex₁⟩
    apply take_symbol (t := .bar) rfl lex₁
    · rintro rest' s₂ same lex₂
      obtain rfl : used' ++ rest = rest' := List.tail_eq_of_cons_eq same
      apply wp_seq (pipeHypothesis follow lex₂ (by change 4 * _ + 3 ≤ _; omega))
      rintro r s₃ ⟨rfl, lex₃⟩
      exact ⟨rfl, lex₃⟩
    · intro s₂ absent
      cases absent
  | @block _ _ _ _ _ redirects ih =>
    intro rest fuel s follow lex enough
    change 4 * _ + 2 ≤ _ at enough
    rw [List.length_cons, List.length_append, List.length_cons] at enough
    obtain ⟨fuel, rfl⟩ : ∃ less, fuel = less + 2 := ⟨fuel - 2, by omega⟩
    rw [List.cons_append, List.append_assoc] at lex
    change wp (parseexec (fuel + 1 + 1)) _ _ _
    apply wp_seq (peek_spec (by decide) lex)
    rintro found s₁ ⟨rfl, lex₁⟩
    refine need_symbol (t := .opened) rfl lex₁ ?_ nofun
    intro rest₁ s₂ same lex₂
    obtain rfl := List.tail_eq_of_cons_eq same
    apply wp_seq (ih (.inr rfl) lex₂ (by change 4 * _ + 4 ≤ _; omega))
    rintro r s₃ ⟨rfl, lex₃⟩
    refine need_symbol (t := .closed) rfl lex₃ ?_ nofun
    intro rest₂ s₄ same lex₄
    obtain rfl := List.tail_eq_of_cons_eq same
    apply wp_seq (parseredirs_complete redirects (follow.not_starts (by decide)) lex₄ (by omega))
    rintro r s₅ ⟨rfl, lex₅⟩
    exact ⟨rfl, lex₅⟩
  | @simple ts argv redirs args few =>
    intro rest fuel s follow lex enough
    change 4 * _ + 2 ≤ _ at enough
    obtain ⟨fuel, rfl⟩ := Nat.exists_eq_add_one.mpr (Nat.zero_lt_of_lt enough)
    change wp (parseexec (fuel + 1)) _ _ _
    rw [parseexec]
    apply wp_seq (peek_spec (by decide) lex)
    rintro found s₁ ⟨rfl, lex₁⟩
    rw [if_neg (Bool.eq_false_iff.mp (args.not_opened follow))]
    have run := @parseargs_complete _ _ _ _ args follow fuel fuel s₁ [] [] lex₁ (by omega)
      (by omega) (by simpa using few)
    rw [wp_bind] at run ⊢
    apply wp_imp run
    intro first s₂ next
    apply wp_seq next
    rintro r s₃ ⟨rfl, lex₃⟩
    exact ⟨rfl, lex₃⟩

/-! ### Strings -/

instance : DecidablePred WordChar := fun c =>
  inferInstanceAs (Decidable (c ≠ 0 ∧ c ∉ whitespace ∧ c ∉ symbols))

/-- A string that starts with a byte of a word has tokens when what is left behind the
word has. -/
theorem exists_lex_word {rest : List UInt8} (char : WordChar c)
    (later : ∃ ts, Lex (rest.dropWhile fun d => decide (WordChar d)) ts) :
    ∃ ts, Lex (c :: rest) ts := by
  obtain ⟨_, lex⟩ := later
  have parts : c :: rest = (c :: rest.takeWhile fun d => decide (WordChar d)) ++
      rest.dropWhile fun d => decide (WordChar d) := by
    rw [List.cons_append, List.takeWhile_append_dropWhile]
  rw [parts]
  refine ⟨_, .word (List.cons_ne_nil _ _) ?_ ?_ lex⟩
  · intro d mem
    cases mem with
    | head => exact char
    | tail _ mem =>
      have inWord := List.mem_takeWhile_imp mem
      exact of_decide_eq_true inWord
  · intro d first
    have stopped := List.head?_dropWhile_not (fun d => decide (WordChar d)) rest
    rw [first] at stopped
    exact of_decide_eq_false stopped

theorem wordChar_of_not_symbol (ne0 : c ≠ 0) (visible : c ∉ whitespace)
    (plain : symbolToken c = none) (notOutput : c ≠ 62) : WordChar c := by
  refine ⟨ne0, visible, fun symbol => ?_⟩
  simp only [symbols, List.mem_cons, List.not_mem_nil, or_false] at symbol
  obtain rfl | rfl | rfl | rfl | rfl | rfl | rfl := symbol
  any_goals cases plain
  exact notOutput rfl

/-- A string without NUL has tokens. -/
theorem exists_lex (nulFree : 0 ∉ s) : ∃ ts, Lex s ts := by
  -- By induction on the length, since a word takes several bytes.
  induction length : s.length using Nat.strongRecOn generalizing s with
  | ind _ ih =>
    cases s with
    | nil => exact ⟨[], .done⟩
    | cons c rest =>
      subst length
      have shorter : ∀ rest', rest' <:+ rest → ∃ ts, Lex rest' ts := by
        intro rest' suffix
        have fewer := suffix.length_le
        refine ih rest'.length (Nat.lt_succ_of_le fewer) ?_ rfl
        exact fun mem => nulFree (.tail c (suffix.subset mem))
      obtain ⟨ts, lex⟩ := shorter rest List.suffix_rfl
      by_cases blank : c ∈ whitespace
      · exact ⟨ts, .space blank lex⟩
      cases symbol : symbolToken c with
      | some t => exact ⟨t :: ts, .symbol symbol lex⟩
      | none =>
        by_cases output : c = 62
        · subst output
          by_cases again : rest.head? = some 62
          · obtain ⟨rest', rfl⟩ := List.head?_eq_some_iff.mp again
            obtain ⟨ts', lex'⟩ := shorter rest' (List.suffix_cons ..)
            exact ⟨.append :: ts', .append lex'⟩
          · exact ⟨.output :: ts, .output again lex⟩
        · have ne0 : c ≠ 0 := fun zero => nulFree (zero ▸ (.head _))
          exact exists_lex_word (wordChar_of_not_symbol ne0 blank symbol output)
            (shorter _ (List.dropWhile_suffix _))

theorem Lex.length_le (lex : Lex s ts) : ts.length ≤ s.length := by
  induction lex with
  | done => exact Nat.le_refl 0
  | space _ _ ih => exact Nat.le_succ_of_le ih
  | symbol _ _ ih => exact Nat.succ_le_succ ih
  | output _ _ ih => exact Nat.succ_le_succ ih
  | append _ ih =>
    exact Nat.le_succ_of_le (Nat.succ_le_succ ih)
  | word ne =>
    have := List.length_pos_iff.mpr ne
    rw [List.length_cons, List.length_append]
    omega

/-- A slice that is a longest word of the string. -/
structure IsWord (input : List UInt8) (word : Slice) : Prop where
  inside : word.q <:+ input
  chars : ∃ text, word.q = text ++ word.eq ∧ ∀ c ∈ text, WordChar c
  longest : ∀ c, word.eq.head? = some c → ¬ WordChar c

theorem IsWord.behind {rest : List UInt8} (word : IsWord rest w) (suffix : rest <:+ s) :
    IsWord s w :=
  ⟨word.inside.trans suffix, word.chars, word.longest⟩

theorem Lex.isWord (lex : Lex s ts) (mem : .word w ∈ ts) : IsWord s w := by
  induction lex with
  | done => cases mem
  | space _ _ ih =>
    exact (ih mem).behind (List.suffix_cons ..)
  | symbol here _ ih =>
    cases mem with
    | head => exact absurd rfl ((symbolToken_cases here).2.2.1 w)
    | tail _ mem => exact (ih mem).behind (List.suffix_cons ..)
  | output _ _ ih =>
    cases mem with
    | tail _ mem => exact (ih mem).behind (List.suffix_cons ..)
  | append _ ih =>
    cases mem with
    | tail _ mem =>
      exact ((ih mem).behind (List.suffix_cons ..)).behind
        (List.suffix_cons ..)
  | @word text _ _ _ chars longest _ ih =>
    cases mem with
    | head => exact ⟨List.suffix_rfl, ⟨text, rfl, chars⟩, longest⟩
    | tail _ mem => exact (ih mem).behind (List.suffix_append ..)

theorem words_wrap (cmd : Cmd Slice) (redirs : List (Redir Slice)) :
    (wrap cmd redirs).words = cmd.words ++ redirs.map Redir.file := by
  induction redirs generalizing cmd with
  | nil => exact (List.append_nil _).symm
  | cons _ _ ih =>
    refine (ih _).trans ?_
    rw [Cmd.words, List.append_assoc, List.singleton_append, List.map_cons]

theorem words_backs (n : Nat) (cmd : Cmd Slice) : (backs n cmd).words = cmd.words := by
  induction n generalizing cmd with
  | zero => rfl
  | succ _ ih => exact ih (.back cmd)

theorem Redirs.mem (derived : Redirs used redirs) (mem : w ∈ redirs.map Redir.file) :
    .word w ∈ used := by
  induction derived with
  | nil => cases mem
  | cons _ _ ih =>
    cases mem with
    | head => exact .tail _ (.head _)
    | tail _ mem =>
      exact .tail _ (.tail _ (ih mem))

theorem Args.mem (args : Args used argv redirs) (mem : w ∈ argv ∨ w ∈ redirs.map Redir.file) :
    .word w ∈ used := by
  induction args with
  | nil => cases mem with
    | inl mem => cases mem
    | inr mem => cases mem
  | redir _ _ ih =>
    cases mem with
    | inl mem =>
      exact .tail _ (.tail _ (ih (.inl mem)))
    | inr mem =>
      cases mem with
      | head => exact .tail _ (.head _)
      | tail _ mem =>
        exact .tail _
          (.tail _ (ih (.inr mem)))
  | word _ ih =>
    cases mem with
    | inl mem =>
      cases mem with
      | head => exact .head _
      | tail _ mem => exact .tail _ (ih (.inl mem))
    | inr mem => exact .tail _ (ih (.inr mem))

/-- The words of a tree are words of the line. -/
theorem Derives.mem (derives : Derives part used cmd) (mem : w ∈ cmd.words) : .word w ∈ used := by
  induction derives with
  | last _ _ ih =>
    rw [words_backs] at mem
    exact List.mem_append_left _ (ih mem)
  | list _ _ _ pipeHypothesis lineHypothesis =>
    rw [Cmd.words, words_backs, List.mem_append] at mem
    cases mem with
    | inl mem =>
      exact List.mem_append_left _ (List.mem_append_left _ (pipeHypothesis mem))
    | inr mem =>
      exact List.mem_append_right _ (.tail _ (lineHypothesis mem))
  | single _ ih => exact ih mem
  | pipe _ _ execHypothesis pipeHypothesis =>
    rw [Cmd.words, List.mem_append] at mem
    cases mem with
    | inl mem => exact List.mem_append_left _ (execHypothesis mem)
    | inr mem =>
      exact List.mem_append_right _ (.tail _ (pipeHypothesis mem))
  | block _ redirects ih =>
    rw [words_wrap, List.mem_append] at mem
    apply List.mem_cons_of_mem
    cases mem with
    | inl mem => exact List.mem_append_left _ (ih mem)
    | inr mem =>
      exact List.mem_append_right _ (.tail _ (redirects.mem mem))
  | simple args =>
    rw [words_wrap, List.mem_append] at mem
    exact args.mem mem

/-- `nulterminate` writes behind the words and nowhere else. -/
theorem nulterminate_eq (n : Nat) (cmd : Cmd Slice) (buffer : Nat → UInt8) (k : Nat) :
    nulterminate n cmd buffer k =
      if ∃ w ∈ cmd.words, k = n - w.eq.length then 0 else buffer k := by
  unfold nulterminate
  induction cmd.words generalizing buffer with
  | nil => simp
  | cons w _ ih =>
    rw [List.foldl_cons, ih]
    by_cases here : k = n - w.eq.length
    · subst here
      simp
    · simp [here]

/-- The word that is read at the pointer `q` when NULs are behind longest words only. -/
theorem cstring_word {buffer : Nat → UInt8} (word : IsWord input w)
    (inside : ∀ k c, input[k]? = some c → WordChar c → buffer k = c)
    (behind : buffer (input.length - w.eq.length) = 0) :
    cstring input.length buffer (input.length - w.q.length) = w.text := by
  obtain ⟨⟨front, rfl⟩, ⟨text, whole, chars⟩, _⟩ := word
  have textEq : w.text = text := by
    rw [Slice.text, whole, List.length_append, Nat.add_sub_cancel, List.take_left]
  have start : (front ++ w.q).length - w.q.length = front.length := by
    rw [List.length_append, Nat.add_sub_cancel]
  have left : (front ++ w.q).length - front.length = text.length + w.eq.length := by
    rw [List.length_append, Nat.add_sub_cancel_left, whole, List.length_append]
  have finish : (front ++ w.q).length - w.eq.length = front.length + text.length := by
    omega
  have same : (List.range text.length).map (fun k => buffer (front.length + k)) = text := by
    apply List.ext_getElem
    · rw [List.length_map, List.length_range]
    intro k _ inText
    rw [List.getElem_map, List.getElem_range]
    apply inside _ _ _ (chars _ (List.getElem_mem inText))
    rw [whole, List.getElem?_append_right (Nat.le_add_right ..), Nat.add_sub_cancel_left,
      List.getElem?_append_left inText, List.getElem?_eq_getElem inText]
  rw [cstring, start, left, List.range_add, List.map_append, same, textEq,
    List.takeWhile_append_of_pos fun c mem => by simpa using (chars c mem).1]
  -- Behind the word there is the NUL, or the string ends.
  cases size : w.eq.length with
  | zero => exact List.append_nil text
  | succ =>
    rw [finish] at behind
    rw [List.range_succ_eq_map, List.map_cons, List.map_cons, Nat.add_zero, behind,
      List.takeWhile_cons_of_neg (by decide), List.append_nil]

/-- After `nulterminate` every word of the tree is read as it stands in the line. -/
theorem cstring_nulterminate (words : ∀ w ∈ cmd.words, IsWord input w) (mem : w ∈ cmd.words) :
    cstring input.length (nulterminate input.length cmd fun k => input.getD k 0)
      (input.length - w.q.length) = w.text := by
  apply cstring_word (words w mem)
  · intro k c here char
    rw [nulterminate_eq, if_neg, List.getD_eq_getElem?_getD, here, Option.getD_some]
    -- What is behind a longest word is no byte of a word.
    rintro ⟨v, among, rfl⟩
    obtain ⟨⟨_, rfl⟩, ⟨_, whole, _⟩, longest⟩ := words v among
    apply longest c _ char
    rw [List.length_append, whole, List.length_append, ← Nat.add_assoc, Nat.add_sub_cancel,
      ← List.append_assoc, ← List.length_append, List.getElem?_append_right (Nat.le_refl _),
      Nat.sub_self] at here
    rw [List.head?_eq_getElem?]
    exact here
  · rw [nulterminate_eq, if_pos ⟨w, mem, rfl⟩]

theorem Cmd.map_congr {V W : Type} {f g : W → V} (cmd : Cmd W)
    (same : ∀ w ∈ cmd.words, f w = g w) : cmd.map f = cmd.map g := by
  induction cmd with
  | exec => exact congrArg Cmd.exec (List.map_congr_left same)
  | redir _ file _ _ ih =>
    rw [Cmd.map, Cmd.map, same file (List.mem_append_right _ List.mem_cons_self),
      ih fun w mem => same w (List.mem_append_left _ mem)]
  | pipe _ _ leftHypothesis rightHypothesis =>
    rw [Cmd.map, Cmd.map, leftHypothesis fun w mem => same w (List.mem_append_left _ mem),
      rightHypothesis fun w mem => same w (List.mem_append_right _ mem)]
  | list _ _ leftHypothesis rightHypothesis =>
    rw [Cmd.map, Cmd.map, leftHypothesis fun w mem => same w (List.mem_append_left _ mem),
      rightHypothesis fun w mem => same w (List.mem_append_right _ mem)]
  | back _ ih => rw [Cmd.map, Cmd.map, ih same]

/-- The tree with the strings its pointers read is the tree of the derivation. -/
theorem map_cstring (lex : Lex input ts) (derives : Derives .line ts cmd) :
    (cmd.map fun w => cstring input.length
      (nulterminate input.length cmd fun k => input.getD k 0) (input.length - w.q.length)) =
    cmd.map Slice.text :=
  cmd.map_congr fun _ mem =>
    cstring_nulterminate (fun _ among => lex.isWord (derives.mem among)) mem

/-! ### The command line -/

/-- Only blanks are left when there is no token. -/
theorem skip_eq_nil_iff (lex : Lex s ts) : skip s = [] ↔ ts = [] := by
  have head := lex.skip.1
  generalize skip s = q at head
  cases head <;> simp

/-- What `parsecmd` does after `parseline`. -/
theorem parsecmd_of_line (run : parseline (4 * input.length + 4) input = .ok (cmd, s)) :
    parsecmd input = if skip s ≠ [] then .error (.panic .leftovers) else
      .ok (cmd.map fun w => cstring input.length
        (nulterminate input.length cmd fun k => input.getD k 0) (input.length - w.q.length)) := by
  obtain ⟨found, peeked⟩ : ∃ found, peek [] s = .ok (found, skip s) := ⟨_, rfl⟩
  unfold parsecmd
  simp only [StateT.run, run, peeked, bind, Except.bind]
  rfl

/-- On a string with these tokens `parsecmd` returns the tree of a derivation or panics. -/
theorem parsecmd_sound (lex : Lex input ts) :
    (∃ tree, parsecmd input = .ok tree ∧ CommandLine input tree) ∨
      ∃ message, parsecmd input = .error (.panic message) := by
  have enough : Part.line.calls ts.length ≤ 4 * input.length + 4 := by
    have := lex.length_le
    change 4 * _ + 4 ≤ _
    omega
  have spec := (parse_sound _ lex).1 .line enough
  cases run : parseline (4 * input.length + 4) input with
  | error =>
    obtain ⟨message, rfl⟩ := wp_error spec run
    refine .inr ⟨message, ?_⟩
    unfold parsecmd
    simp only [StateT.run, run, bind, Except.bind]
  | ok res =>
    obtain ⟨cmd, s⟩ := res
    rw [parsecmd_of_line run]
    split
    · exact .inr ⟨_, rfl⟩
    rename_i ended
    obtain ⟨used, _, rfl, derives, lex'⟩ := wp_run spec run
    obtain rfl := (skip_eq_nil_iff lex').mp (not_not.mp ended)
    rw [List.append_nil] at lex
    exact .inl ⟨_, rfl, used, cmd, lex, derives, map_cstring lex derives⟩

/-- On a command line `parsecmd` returns its tree. -/
theorem parsecmd_complete {tree : Cmd (List UInt8)} (line : CommandLine input tree) :
    parsecmd input = .ok tree := by
  obtain ⟨ts, _, lex, derives, rfl⟩ := line
  have enough : Part.line.calls ts.length ≤ 4 * input.length + 4 := by
    have := lex.length_le
    change 4 * _ + 4 ≤ _
    omega
  have whole : Lex input (ts ++ []) := by rwa [List.append_nil]
  obtain ⟨_, s, run, rfl, lex'⟩ := exists_of_wp (parse_complete derives (.inl rfl) whole enough)
  have ended : ¬ skip s ≠ [] := not_not.mpr ((skip_eq_nil_iff lex').mpr rfl)
  rw [parsecmd_of_line run, if_neg ended, map_cstring lex derives]

/-- The parser accepts the command lines of the grammar, with the tree of the derivation, and
panics on every other string. -/
theorem parsecmd_correct (input : List UInt8) (nulFree : 0 ∉ input) :
    (∀ tree, parsecmd input = .ok tree ↔ CommandLine input tree) ∧
    ((∃ tree, parsecmd input = .ok tree) ∨
      ∃ message, parsecmd input = .error (.panic message)) := by
  obtain ⟨_, lex⟩ := exists_lex nulFree
  constructor
  · intro tree
    constructor
    · intro ret
      cases parsecmd_sound lex with
      | inl accepted =>
        obtain ⟨tree', returned', line⟩ := accepted
        obtain rfl : _ = tree := Except.ok.inj (returned'.symm.trans ret)
        exact line
      | inr panicked =>
        obtain ⟨_, stopped⟩ := panicked
        rw [stopped] at ret
        cases ret
    · exact parsecmd_complete
  cases parsecmd_sound lex with
  | inl accepted =>
    obtain ⟨tree, ret, _⟩ := accepted
    exact .inl ⟨tree, ret⟩
  | inr panicked => exact .inr panicked

/-- `a <b|(c;d)&` -/
theorem parsecmd_correct_line :
    CommandLine [97, 32, 60, 98, 124, 40, 99, 59, 100, 41, 38]
      (.back (.pipe (.redir (.exec [[97]]) [98] 0 0) (.list (.exec [[99]]) (.exec [[100]])))) :=
  ((parsecmd_correct _ (by decide)).1 _).mp (by decide +kernel)

end Shell

end CustomXv6

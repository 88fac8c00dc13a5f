/-
Module: CustomXv6.Lib.Hoare
Purpose: Weakest preconditions for programs that change a state and may stop with an error.
Trusted boundary: none
Main exports: Hoare.wp, wp_imp, wp_seq, exists_of_wp
-/
import Mathlib.Tactic.Common

namespace Hoare

variable {σ ε α β : Type}

/-!
A program is a `StateT σ (Except ε) α`.  `wp prog post fail s` says how it ends
when it is started in the state `s`: with a value and a state that satisfy
`post`, or with an error that satisfies `fail`.  A claim that some error cannot
occur is a claim with that error excluded from `fail`.
-/

/-- From `s` the program either returns with `post` or stops with `fail`. -/
def wp (prog : StateT σ (Except ε) α) (post : α → σ → Prop) (fail : ε → Prop) (s : σ) : Prop :=
  match prog s with
  | .ok (value, s') => post value s'
  | .error e => fail e

/-- No error is admitted. -/
abbrev Never : ε → Prop := fun _ => False

section Rules

variable {post : α → σ → Prop} {fail : ε → Prop} {s : σ}
variable {prog : StateT σ (Except ε) α}

@[simp] theorem wp_pure (value : α) :
    wp (pure value : StateT σ (Except ε) α) post fail s ↔ post value s := Iff.rfl

@[simp] theorem wp_get {post : σ → σ → Prop} :
    wp (get : StateT σ (Except ε) σ) post fail s ↔ post s s := Iff.rfl

@[simp] theorem wp_set {post : PUnit → σ → Prop} (s' : σ) :
    wp (set s' : StateT σ (Except ε) PUnit) post fail s ↔ post ⟨⟩ s' := Iff.rfl

@[simp] theorem wp_modify {post : PUnit → σ → Prop} (change : σ → σ) :
    wp (modify change : StateT σ (Except ε) PUnit) post fail s ↔ post ⟨⟩ (change s) := Iff.rfl

/-- Sequencing: what the first program ensures is what the second needs. -/
@[simp] theorem wp_bind {post : β → σ → Prop} (first : StateT σ (Except ε) α)
    (second : α → StateT σ (Except ε) β) :
    wp (first >>= second) post fail s ↔
      wp first (fun value s' => wp (second value) post fail s') fail s := by
  simp only [wp, bind, StateT.bind, Except.bind]
  cases first s with
  | ok => rfl
  | error => rfl

/-- Consequence. -/
theorem wp_mono {post' : α → σ → Prop} {fail fail' : ε → Prop} (run : wp prog post fail s)
    (returns : ∀ value s', post value s' → post' value s') (fails : ∀ e, fail e → fail' e) :
    wp prog post' fail' s := by
  simp only [wp] at run ⊢
  split at run
  · exact returns _ _ run
  · exact fails _ run

/-- Consequence in the postcondition only. -/
theorem wp_imp {post' : α → σ → Prop} (run : wp prog post fail s)
    (returns : ∀ value s', post value s' → post' value s') : wp prog post' fail s :=
  wp_mono run returns fun _ failed => failed

/-- Consequence for a program that cannot stop. -/
theorem wp_never {post' : α → σ → Prop} (run : wp prog post Never s)
    (returns : ∀ value s', post value s' → post' value s') : wp prog post' fail s :=
  wp_mono run returns fun _ => False.elim

/-- Sequencing with the specification of the first program. -/
theorem wp_seq {post' : β → σ → Prop} {second : α → StateT σ (Except ε) β}
    (run : wp prog post fail s)
    (rest : ∀ value s', post value s' → wp (second value) post' fail s') :
    wp (prog >>= second) post' fail s :=
  (wp_bind prog second).mpr (wp_imp run rest)

variable {value : α}

/-- A program whose result is known. -/
theorem wp_ok {s' : σ} (run : prog s = .ok (value, s')) : wp prog post fail s ↔ post value s' := by
  simp only [wp, run]

/-- A program that returns does so with its postcondition. -/
theorem wp_run {s' : σ} (spec : wp prog post fail s) (run : prog s = .ok (value, s')) :
    post value s' := by
  simpa only [wp, run] using spec

/-- A program that stops does so with an error its specification admits. -/
theorem wp_error {e : ε} (spec : wp prog post fail s) (run : prog s = .error e) : fail e := by
  simpa only [wp, run] using spec

/-- A program that cannot stop returns. -/
theorem exists_of_wp (spec : wp prog post Never s) :
    ∃ value s', prog s = .ok (value, s') ∧ post value s' := by
  cases run : prog s with
  | ok res => exact ⟨res.1, res.2, rfl, wp_run spec run⟩
  | error => exact (wp_error spec run).elim

/-- The program keeps an invariant. -/
def Keeps (inv : σ → Prop) (fail : ε → Prop) (prog : StateT σ (Except ε) α) : Prop :=
  ∀ s, inv s → wp prog (fun _ s' => inv s') fail s

theorem Keeps.pure {inv : σ → Prop} (value : α) :
    Keeps inv fail (pure value : StateT σ (Except ε) α) := fun _ holds => holds

theorem Keeps.bind {inv : σ → Prop} {second : α → StateT σ (Except ε) β}
    (first : Keeps inv fail prog) (rest : ∀ value, Keeps inv fail (second value)) :
    Keeps inv fail (prog >>= second) :=
  fun s holds => wp_seq (first s holds) rest

end Rules

/-- A counted loop: an invariant of the number of rounds done that each round
takes one further holds after the last round. -/
theorem wp_forM_range {fail : ε → Prop} {body : Nat → StateT σ (Except ε) PUnit}
    (inv : Nat → σ → Prop) (n : Nat) {s : σ} (start : inv 0 s)
    (round : ∀ k s, k < n → inv k s → wp (body k) (fun _ s' => inv (k + 1) s') fail s) :
    wp ((List.range n).forM body) (fun _ s' => inv n s') fail s := by
  -- The rounds from `first` on, by induction on how many of them are left.
  have rounds : ∀ (left first : Nat) (s : σ), first + left = n → inv first s →
      wp ((List.range' first left).forM body) (fun _ s' => inv n s') fail s := by
    intro left
    induction left with
    | zero =>
      intro first s total holds
      obtain rfl : first = n := total
      exact holds
    | succ left ih =>
      intro first s _ holds
      change wp (body first >>= fun _ => (List.range' (first + 1) left).forM body) _ _ _
      rw [wp_bind]
      exact wp_imp (round first s (by omega) holds) fun _ s' next =>
        ih (first + 1) s' (by omega) next
  rw [List.range_eq_range']
  exact rounds n 0 s (Nat.zero_add n) start

end Hoare

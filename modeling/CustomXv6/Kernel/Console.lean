/-
Module: CustomXv6.Kernel.Console
Purpose: The line discipline (kernel/console.c) refines a queue of lines and a line being edited.
Trusted boundary: human-reviewed spec
Main exports: ConsoleSys.step, console_refines
-/
import CustomXv6.Lib.RingBuffer
import CustomXv6.Lib.Transition

namespace CustomXv6

open Function
open Transition RingBuffer

/-! ### The ring -/

abbrev inputBufSize : Nat := 128

/-- `C(x)`, for the code of an upper-case letter. -/
abbrev control (x : UInt8) : UInt8 := x - 64

abbrev ctrlP : UInt8 := control 80

abbrev ctrlU : UInt8 := control 85

abbrev ctrlH : UInt8 := control 72

abbrev ctrlD : UInt8 := control 68

abbrev delete : UInt8 := 127

abbrev newline : UInt8 := 10

abbrev carriageReturn : UInt8 := 13

/-- `cons`, without its lock. -/
structure Cons where
  buf : Nat → UInt8 := fun _ => 0
  r : UInt32 := 0
  w : UInt32 := 0
  e : UInt32 := 0

/-- The loop that kills a line. -/
def killLine : (fuel : Nat) → Cons → Cons
  | 0, cons => cons
  | fuel + 1, cons =>
    if cons.e ≠ cons.w ∧ cons.buf ((cons.e - 1).toNat % inputBufSize) ≠ newline then
      killLine fuel { cons with e := cons.e - 1 }
    else cons

/-- `cons.buf[cons.e++ % INPUT_BUF_SIZE] = c`. -/
def Cons.store (cons : Cons) (c : UInt8) : Cons :=
  { cons with buf := update cons.buf (cons.e.toNat % inputBufSize) c, e := cons.e + 1 }

/-- `consoleintr`, for a character from the uart.  The result also says whether it
calls `wakeup(&cons.r)`. -/
def consoleintr (cons : Cons) (c : UInt8) : Cons × Bool :=
  if c = ctrlP then
    (cons, false)
  else if c = ctrlU then
    (killLine (cons.e - cons.w).toNat cons, false)
  else if c = ctrlH ∨ c = delete then
    if cons.e ≠ cons.w then ({ cons with e := cons.e - 1 }, false) else (cons, false)
  else if c ≠ 0 ∧ cons.e - cons.r < UInt32.ofNat inputBufSize then
    let c := if c = carriageReturn then newline else c
    let cons := cons.store c
    if c = newline ∨ c = ctrlD ∨ cons.e - cons.r = UInt32.ofNat inputBufSize then
      ({ cons with w := cons.e }, true)
    else
      (cons, false)
  else
    (cons, false)

/-! ### Calls and their interleaving -/

/-- How a round of the loop of `consoleread` ends. -/
inductive Outcome (ρ : Type) where
  | again (reader : ρ)
  | wait
  | done (r : Int) (out : List UInt8)

/-- What the console does: for an interrupt, at the start of a read of `n` bytes,
and in a round of the read's loop.  `dst` says which bytes of the destination can
be written. -/
structure ConsoleOps (δ ρ : Type) where
  intr : δ → UInt8 → δ × Bool
  start : Int32 → ρ
  round : δ → ρ → (dst : Nat → Bool) → (killed : Bool) → δ × Outcome ρ

/-- Where a process is that may call `consoleread`. -/
inductive ConsolePc (ρ : Type) where
  | returned (r : Int) (out : List UInt8)
  | acquire (dst : Nat → Bool) (reader : ρ)
  | loop (dst : Nat → Bool) (reader : ρ)
  | sleep (dst : Nat → Bool) (reader : ρ)

structure ConsoleSys (δ ρ : Type) where
  device : δ
  lock : Option Nat := none
  killed : Nat → Bool := fun _ => false
  pc : Nat → ConsolePc ρ := fun _ => .returned 0 []

/-- Steps: a character arrives, a process calls `consoleread`, one goes on with its
call, and one is killed. -/
inductive ConsoleAction where
  | intr (c : UInt8)
  | consoleread (p : Nat) (dst : Nat → Bool) (n : Int32)
  | advance (p : Nat)
  | kill (p : Nat)

/-- A process that sleeps goes on to take the lock again. -/
def ConsolePc.awake {ρ : Type} : ConsolePc ρ → ConsolePc ρ
  | .sleep dst reader => .acquire dst reader
  | pc => pc

def ConsoleSys.goto {δ ρ : Type} (s : ConsoleSys δ ρ) (p : Nat) (pc : ConsolePc ρ) :
    ConsoleSys δ ρ := { s with pc := update s.pc p pc }

def ConsoleSys.wakeup {δ ρ : Type} (s : ConsoleSys δ ρ) : ConsoleSys δ ρ :=
  { s with pc := fun p => (s.pc p).awake }

/-- One step.  The lock is held from one sleep of a reader to the next. -/
def ConsoleSys.step {δ ρ : Type} (ops : ConsoleOps δ ρ) (s : ConsoleSys δ ρ) :
    ConsoleAction → Option (ConsoleSys δ ρ)
  | .intr c =>
    if s.lock = none then
      match ops.intr s.device c with
      | (device, true) => some { s with device := device }.wakeup
      | (device, false) => some { s with device := device }
    else none
  | .consoleread p dst n =>
    match s.pc p with
    | .returned _ _ => some (s.goto p (.acquire dst (ops.start n)))
    | _ => none
  | .advance p =>
    match s.pc p with
    | .acquire dst reader =>
      if s.lock = none then
        some ({ s with lock := some p }.goto p (.loop dst reader))
      else none
    | .loop dst reader =>
      if s.lock = some p then
        match ops.round s.device reader dst (s.killed p) with
        | (device, .again reader) =>
          some ({ s with device := device }.goto p (.loop dst reader))
        | (device, .wait) =>
          some ({ s with device := device, lock := none }.goto p (.sleep dst reader))
        | (device, .done r out) =>
          some ({ s with device := device, lock := none }.goto p (.returned r out))
      else none
    | _ => none
  | .kill p => some ({ s with killed := update s.killed p true }.goto p (s.pc p).awake)

/-- A call of `consoleread`: what is left to read, the number asked for, and the
bytes that have been copied to the destination, which `dst` has moved past. -/
structure ConsReader where
  n : Int32
  target : UInt32
  out : List UInt8 := []

/-- `target - n`. -/
def ConsReader.result (reader : ConsReader) : Int :=
  (reader.target - reader.n.toUInt32).toInt32.toInt

def ConsReader.round (cons : Cons) (reader : ConsReader) (dst : Nat → Bool) (killed : Bool) :
    Cons × Outcome ConsReader :=
  if 0 < reader.n then
    if cons.r = cons.w then
      if killed then (cons, .done (-1) reader.out) else (cons, .wait)
    else
      let c := cons.buf (cons.r.toNat % inputBufSize)
      let cons := { cons with r := cons.r + 1 }
      if c = ctrlD then
        if reader.n.toUInt32 < reader.target then
          ({ cons with r := cons.r - 1 }, .done reader.result reader.out)
        else
          (cons, .done reader.result reader.out)
      else if dst reader.out.length = false then
        (cons, .done reader.result reader.out)
      else
        let reader := { reader with n := reader.n - 1, out := reader.out ++ [c] }
        if c = newline then
          (cons, .done reader.result reader.out)
        else
          (cons, .again reader)
  else
    (cons, .done reader.result reader.out)

def consOps : ConsoleOps Cons ConsReader where
  intr := consoleintr
  start n := { n := n, target := n.toUInt32 }
  round := ConsReader.round

def ConsoleSys.init : ConsoleSys Cons ConsReader where
  device := {}

/-! ### Lines -/

/-- What the console is for: a queue of bytes that can be read, and the line that
is being typed. -/
structure Line where
  committed : List UInt8 := []
  edited : List UInt8 := []
deriving DecidableEq, Repr

/-- The number of bytes the console has to keep. -/
def Line.length (line : Line) : Nat := line.committed.length + line.edited.length

/-- The edited line can be read from now on. -/
def Line.commit (line : Line) : Line where
  committed := line.committed ++ line.edited

def Line.intr (line : Line) (c : UInt8) : Line × Bool :=
  if c = ctrlP then
    (line, false)
  else if c = ctrlU then
    ({ line with edited := [] }, false)
  else if c = ctrlH ∨ c = delete then
    ({ line with edited := line.edited.dropLast }, false)
  else if c ≠ 0 ∧ line.length < inputBufSize then
    let c := if c = carriageReturn then newline else c
    let line := { line with edited := line.edited ++ [c] }
    if c = newline ∨ c = ctrlD ∨ line.length = inputBufSize then
      (line.commit, true)
    else
      (line, false)
  else
    (line, false)

/-- A reader that wants at most `limit` bytes and has got `out`. -/
structure LineReader where
  limit : Nat
  out : List UInt8 := []
deriving DecidableEq, Repr

/-- The reader takes the first committed byte.  It stops after a newline and at an
end of file, which stays in the queue if it has got any bytes before. -/
def LineReader.round (line : Line) (reader : LineReader) (dst : Nat → Bool) (killed : Bool) :
    Line × Outcome LineReader :=
  if reader.out.length < reader.limit then
    match line.committed with
    | [] => if killed then (line, .done (-1) reader.out) else (line, .wait)
    | c :: rest =>
      if c = ctrlD then
        if reader.out ≠ [] then
          (line, .done reader.out.length reader.out)
        else
          ({ line with committed := rest }, .done reader.out.length reader.out)
      else if dst reader.out.length = false then
        ({ line with committed := rest }, .done reader.out.length reader.out)
      else
        let reader := { reader with out := reader.out ++ [c] }
        if c = newline then
          ({ line with committed := rest }, .done reader.out.length reader.out)
        else
          ({ line with committed := rest }, .again reader)
  else
    (line, .done reader.out.length reader.out)

/-- The console as a queue of lines. -/
def lineOps : ConsoleOps Line LineReader where
  intr := Line.intr
  start n := { limit := n.toInt.toNat }
  round := LineReader.round

/-! ### Refinement of the operations gives refinement of the system -/

/-- The outcome for another kind of reader. -/
def Outcome.map {ρ ρ' : Type} (g : ρ → ρ') : Outcome ρ → Outcome ρ'
  | .again reader => .again (g reader)
  | .wait => .wait
  | .done r out => .done r out

def ConsolePc.map {ρ ρ' : Type} (g : ρ → ρ') : ConsolePc ρ → ConsolePc ρ'
  | .returned r out => .returned r out
  | .acquire dst reader => .acquire dst (g reader)
  | .loop dst reader => .loop dst (g reader)
  | .sleep dst reader => .sleep dst (g reader)

/-- The reader at a position, if there is one, has the property. -/
def ConsolePc.Has {ρ : Type} (Q : ρ → Prop) : ConsolePc ρ → Prop
  | .returned _ _ => True
  | .acquire _ reader => Q reader
  | .loop _ reader => Q reader
  | .sleep _ reader => Q reader

/-- The system over another device. -/
def ConsoleSys.map {δ δ' ρ ρ' : Type} (f : δ → δ') (g : ρ → ρ') (s : ConsoleSys δ ρ) :
    ConsoleSys δ' ρ' where
  device := f s.device
  lock := s.lock
  killed := s.killed
  pc p := (s.pc p).map g

/-- The operations of one device are those of another one, seen through `f` and
`g`, wherever the device satisfies `P` and the reader `Q`; and these stay so. -/
structure ConsoleOps.Refines {δ δ' ρ ρ' : Type} (ops : ConsoleOps δ ρ) (ops' : ConsoleOps δ' ρ')
    (f : δ → δ') (g : ρ → ρ') (P : δ → Prop) (Q : ρ → Prop) : Prop where
  intr : ∀ device c, P device → P (ops.intr device c).1 ∧
    ops'.intr (f device) c = (f (ops.intr device c).1, (ops.intr device c).2)
  start : ∀ n, Q (ops.start n) ∧ ops'.start n = g (ops.start n)
  round : ∀ device reader dst killed, P device → Q reader →
    P (ops.round device reader dst killed).1 ∧
    (∀ next, (ops.round device reader dst killed).2 = .again next → Q next) ∧
    ops'.round (f device) (g reader) dst killed =
      (f (ops.round device reader dst killed).1, (ops.round device reader dst killed).2.map g)

section Refinement

variable {δ δ' ρ ρ' : Type} {ops : ConsoleOps δ ρ} {ops' : ConsoleOps δ' ρ'} {f : δ → δ'}
  {g : ρ → ρ'} {P : δ → Prop} {Q : ρ → Prop} {s : ConsoleSys δ ρ}

theorem ConsolePc.map_awake (pc : ConsolePc ρ) : (pc.map g).awake = pc.awake.map g := by
  cases pc with
  | returned => rfl
  | acquire => rfl
  | loop => rfl
  | sleep => rfl

variable {pc : ConsolePc ρ}

theorem ConsolePc.Has.awake (has : pc.Has Q) : pc.awake.Has Q := by
  cases pc with
  | returned => exact has
  | acquire => exact has
  | loop => exact has
  | sleep => exact has

/-- What the refinement needs of the device and of every reader. -/
structure ConsoleSys.Ok (P : δ → Prop) (Q : ρ → Prop) (s : ConsoleSys δ ρ) : Prop where
  device : P s.device
  readers : ∀ p, (s.pc p).Has Q

theorem ConsoleSys.map_goto (s : ConsoleSys δ ρ) (p : Nat) (pc : ConsolePc ρ) :
    (s.goto p pc).map f g = (s.map f g).goto p (pc.map g) := by
  simp only [ConsoleSys.map, ConsoleSys.goto, ConsoleSys.mk.injEq, true_and]
  funext q
  by_cases same : q = p
  · subst same
    rw [update_self, update_self]
  · rw [update_of_ne same, update_of_ne same]

theorem ConsoleSys.map_wakeup (s : ConsoleSys δ ρ) : s.wakeup.map f g = (s.map f g).wakeup := by
  simp only [ConsoleSys.map, ConsoleSys.wakeup, ConsolePc.map_awake]

theorem ConsoleSys.Ok.goto (ok : s.Ok P Q) (p : Nat) (has : pc.Has Q) : (s.goto p pc).Ok P Q := by
  constructor
  · exact ok.device
  intro q
  by_cases same : q = p
  · subst same
    simp only [ConsoleSys.goto, update_self]
    exact has
  · simp only [ConsoleSys.goto, update_of_ne same]
    exact ok.readers q

theorem ConsoleSys.Ok.wakeup (ok : s.Ok P Q) : s.wakeup.Ok P Q :=
  ⟨ok.device, fun p => (ok.readers p).awake⟩

/-- A step that is not enabled in either system. -/
theorem ConsoleSys.not_enabled : (none : Option (ConsoleSys δ' ρ')) =
    (none : Option (ConsoleSys δ ρ)).map (ConsoleSys.map f g) ∧
      ∀ s', (none : Option (ConsoleSys δ ρ)) = some s' → s'.Ok P Q :=
  ⟨rfl, nofun⟩

/-- A step that leads to `s'` in one system and to what `s'` stands for in the
other. -/
theorem ConsoleSys.taken {s' : ConsoleSys δ ρ} {t' : ConsoleSys δ' ρ'} (same : t' = s'.map f g)
    (ok : s'.Ok P Q) :
    some t' = (some s').map (ConsoleSys.map f g) ∧ ∀ s'', some s' = some s'' → s''.Ok P Q := by
  constructor
  · rw [same]
    rfl
  · intro _ equal
    cases equal
    exact ok

/-- A step of one system is that step of the other, and keeps what it rests on. -/
theorem ConsoleOps.Refines.step (refines : ops.Refines ops' f g P Q) (ok : s.Ok P Q)
    (act : ConsoleAction) :
    (s.map f g).step ops' act = (s.step ops act).map (ConsoleSys.map f g) ∧
      ∀ s', s.step ops act = some s' → s'.Ok P Q := by
  have lock : (s.map f g).lock = s.lock := rfl
  cases act with
  | intr c =>
    obtain ⟨kept, same⟩ := refines.intr s.device c ok.device
    change ops'.intr (s.map f g).device c = _ at same
    simp only [ConsoleSys.step, lock, same]
    split
    · generalize ops.intr s.device c = result at kept
      obtain ⟨device, woken⟩ := result
      have ok' : { s with device := device }.Ok P Q := ⟨kept, ok.readers⟩
      cases woken with
      | true =>
        apply ConsoleSys.taken
        · rw [ConsoleSys.map_wakeup]
          rfl
        · exact ok'.wakeup
      | false => exact ConsoleSys.taken rfl ok'
    · exact ConsoleSys.not_enabled
  | consoleread p dst n =>
    obtain ⟨good, same⟩ := refines.start n
    have place : (s.map f g).pc p = (s.pc p).map g := rfl
    simp only [ConsoleSys.step, place, same]
    cases s.pc p with
    | returned =>
      apply ConsoleSys.taken
      · rw [ConsoleSys.map_goto]
        rfl
      · exact ok.goto p good
    | acquire => exact ConsoleSys.not_enabled
    | loop => exact ConsoleSys.not_enabled
    | sleep => exact ConsoleSys.not_enabled
  | advance p =>
    have mine := ok.readers p
    have place : (s.map f g).pc p = (s.pc p).map g := rfl
    simp only [ConsoleSys.step, place, lock]
    cases here : s.pc p with
    | returned => exact ConsoleSys.not_enabled
    | sleep => exact ConsoleSys.not_enabled
    | acquire =>
      rw [here] at mine
      have ok' : { s with lock := some p }.Ok P Q := ⟨ok.device, ok.readers⟩
      simp only [ConsolePc.map]
      split
      · apply ConsoleSys.taken
        · rw [ConsoleSys.map_goto]
          rfl
        · exact ok'.goto p mine
      · exact ConsoleSys.not_enabled
    | loop dst reader =>
      rw [here] at mine
      obtain ⟨kept, next, same⟩ := refines.round s.device reader dst (s.killed p) ok.device mine
      change ops'.round (s.map f g).device (g reader) dst ((s.map f g).killed p) = _ at same
      simp only [ConsolePc.map, same]
      split
      · generalize ops.round s.device reader dst (s.killed p) = result at kept next
        obtain ⟨device, outcome⟩ := result
        have stays : { s with device := device }.Ok P Q := ⟨kept, ok.readers⟩
        have freed : { s with device := device, lock := none }.Ok P Q := ⟨kept, ok.readers⟩
        cases outcome with
        | again reader' =>
          apply ConsoleSys.taken
          · rw [ConsoleSys.map_goto]
            rfl
          · exact stays.goto p (next reader' rfl)
        | wait =>
          apply ConsoleSys.taken
          · rw [ConsoleSys.map_goto]
            rfl
          · exact freed.goto p mine
        | done =>
          apply ConsoleSys.taken
          · rw [ConsoleSys.map_goto]
            rfl
          · exact freed.goto p trivial
      · exact ConsoleSys.not_enabled
  | kill p =>
    have killed : { s with killed := update s.killed p true }.Ok P Q := ⟨ok.device, ok.readers⟩
    apply ConsoleSys.taken
    · rw [ConsoleSys.map_goto, ← ConsolePc.map_awake]
      rfl
    · exact killed.goto p (ok.readers p).awake

end Refinement

/-! ### The ring as lines -/

/-- The bytes from `r` to `w` and those from `w` to `e`. -/
def Cons.line (cons : Cons) : Line where
  committed := between cons.buf inputBufSize cons.r cons.w
  edited := between cons.buf inputBufSize cons.w cons.e

/-- The indices are in order and at most the size of the buffer apart, and the line
that is being edited has no newline in it. -/
structure Cons.Ok (cons : Cons) : Prop where
  bounded : (cons.w - cons.r).toNat + (cons.e - cons.w).toNat ≤ inputBufSize
  oneLine : ∀ c, c ∈ cons.line.edited → c ≠ newline

section Ring

variable {cons : Cons}

theorem Cons.line_length (cons : Cons) :
    cons.line.length = (cons.w - cons.r).toNat + (cons.e - cons.w).toNat := by
  rw [Line.length, Cons.line, between_length, between_length]

theorem inputBufSize_divides : inputBufSize ∣ 2 ^ 32 := by decide

/-- `cons.e - cons.r` is the number of bytes kept. -/
theorem Cons.Ok.distance (ok : cons.Ok) : (cons.e - cons.r).toNat = cons.line.length := by
  rw [cons.line_length]
  exact distance_add (lt_of_le_of_lt ok.bounded (by decide))

theorem Cons.Ok.le (ok : cons.Ok) : cons.line.length ≤ inputBufSize := by
  rw [cons.line_length]
  exact ok.bounded

/-- The last character goes. -/
theorem Cons.Ok.erase (ok : cons.Ok) (some : cons.e ≠ cons.w) :
    { cons with e := cons.e - 1 }.Ok ∧
      { cons with e := cons.e - 1 }.line =
        { cons.line with edited := cons.line.edited.dropLast } := by
  have edited : { cons with e := cons.e - 1 }.line.edited = cons.line.edited.dropLast :=
    between_retract some.symm
  constructor
  · constructor
    · have one := distance_pred some.symm
      have bounded := ok.bounded
      dsimp only
      omega
    · intro c mem
      rw [edited] at mem
      exact ok.oneLine c (List.dropLast_subset _ mem)
  · rw [← edited]
    rfl

/-- Killing the line removes all of it. -/
theorem Cons.Ok.killLine {fuel : Nat} : ∀ {cons : Cons}, cons.Ok →
    (cons.e - cons.w).toNat = fuel →
    (killLine fuel cons).Ok ∧ (killLine fuel cons).line = { cons.line with edited := [] } := by
  induction fuel with
  | zero =>
    intro cons ok empty
    have none : cons.line.edited = [] := by
      rw [← List.length_eq_zero_iff, Cons.line, between_length]
      exact empty
    refine ⟨ok, ?_⟩
    rw [← none]
    rfl
  | succ _ ih =>
    intro cons ok length
    have some : cons.w ≠ cons.e := by
      intro same
      rw [same, UInt32.sub_self] at length
      cases length
    have last : cons.line.edited.getLast? =
        Option.some (cons.buf ((cons.e - 1).toNat % inputBufSize)) :=
      between_getLast? inputBufSize_divides some
    have plain : cons.buf ((cons.e - 1).toNat % inputBufSize) ≠ newline :=
      ok.oneLine _ (List.mem_of_getLast? last)
    obtain ⟨ok', line'⟩ := ok.erase some.symm
    have one := distance_pred some
    rw [CustomXv6.killLine, if_pos ⟨some.symm, plain⟩]
    obtain ⟨done, line''⟩ := ih ok' (by dsimp only; omega)
    refine ⟨done, ?_⟩
    rw [line'', line']

/-- A character that is stored is the last one of the edited line, and no other
byte changes. -/
theorem Cons.Ok.store_line (ok : cons.Ok) (room : cons.line.length < inputBufSize) (c : UInt8) :
    (cons.store c).line = { cons.line with edited := cons.line.edited ++ [c] } := by
  have total := room
  rw [cons.line_length] at total
  have longer : (cons.e + 1 - cons.w).toNat = (cons.e - cons.w).toNat + 1 :=
    distance_succ (lt_trans (by omega : _ < inputBufSize) (by decide))
  have shortEdited : (cons.e - cons.w).toNat < inputBufSize := by omega
  have edited : (cons.store c).line.edited = cons.line.edited ++ [c] :=
    between_write inputBufSize_divides (by decide) shortEdited c
  -- The whole ring grows by `c` as well, so what comes before the edited line stays.
  have whole : between (cons.store c).buf inputBufSize cons.r (cons.e + 1) =
      between cons.buf inputBufSize cons.r cons.e ++ [c] :=
    between_write inputBufSize_divides (by decide) (by rw [ok.distance]; exact room) c
  have pre : (cons.w - cons.r).toNat + (cons.e - cons.w).toNat < 2 ^ 32 :=
    lt_trans total (by decide)
  have after : (cons.w - cons.r).toNat + (cons.e + 1 - cons.w).toNat < 2 ^ 32 := by
    rw [longer]
    exact lt_of_le_of_lt (Nat.succ_le_of_lt total) (by decide)
  have committed : (cons.store c).line.committed = cons.line.committed := by
    have split : (cons.store c).line.committed ++ (cons.store c).line.edited =
        cons.line.committed ++ (cons.line.edited ++ [c]) := by
      rw [← List.append_assoc]
      exact (between_append inputBufSize_divides after).trans
        (whole.trans (congrArg (· ++ [c]) (between_append inputBufSize_divides pre).symm))
    rw [edited] at split
    exact List.append_cancel_right split
  change (cons.store c).line = ⟨cons.line.committed, cons.line.edited ++ [c]⟩
  rw [← committed, ← edited]

/-- `cons.w = cons.e`. -/
theorem Cons.Ok.commit (fits : (cons.w - cons.r).toNat + (cons.e - cons.w).toNat ≤ inputBufSize) :
    { cons with w := cons.e }.Ok ∧ { cons with w := cons.e }.line = cons.line.commit := by
  have sum := distance_add (lt_of_le_of_lt fits (by decide))
  constructor
  · constructor
    · dsimp only
      rw [sum, UInt32.sub_self]
      exact fits
    intro c mem
    have none : { cons with w := cons.e }.line.edited = [] := between_self _ _ _
    rw [none] at mem
    cases mem
  · have all : between cons.buf inputBufSize cons.r cons.w ++
        between cons.buf inputBufSize cons.w cons.e = between cons.buf inputBufSize cons.r cons.e :=
      between_append inputBufSize_divides (lt_of_le_of_lt fits (by decide))
    simp only [Cons.line, Line.commit, between_self, all]

/-- `consoleintr` does to the ring what typing does to the lines. -/
theorem Cons.Ok.consoleintr (ok : cons.Ok) (c : UInt8) :
    (consoleintr cons c).1.Ok ∧
      cons.line.intr c = ((CustomXv6.consoleintr cons c).1.line, (CustomXv6.consoleintr cons c).2) := by
  unfold CustomXv6.consoleintr Line.intr
  split
  · exact ⟨ok, rfl⟩
  split
  · obtain ⟨ok', line'⟩ := ok.killLine rfl
    exact ⟨ok', by rw [line']⟩
  split
  · split
    · rename_i some
      obtain ⟨ok', line'⟩ := ok.erase some
      exact ⟨ok', by rw [line']⟩
    rename_i none
    rw [not_not] at none
    have empty : cons.line.edited = [] := between_eq_nil.mpr none.symm
    refine ⟨ok, ?_⟩
    rw [empty, List.dropLast_nil, ← empty]
  have test : cons.e - cons.r < UInt32.ofNat inputBufSize ↔
      cons.line.length < inputBufSize := by
    rw [UInt32.lt_iff_toNat_lt, ok.distance]
    rfl
  simp only [test]
  split
  · rename_i typed
    have room := typed.2
    generalize (if c = carriageReturn then newline else c) = c'
    have line' := ok.store_line room c'
    have length' : (cons.store c').line.length = cons.line.length + 1 := by
      rw [line', Line.length, List.length_append, List.length_singleton, Line.length, Nat.add_assoc]
    have fits : ((cons.store c').w - (cons.store c').r).toNat +
        ((cons.store c').e - (cons.store c').w).toNat ≤ inputBufSize := by
      rw [← Cons.line_length, length']
      exact room
    have full : (cons.store c').e - (cons.store c').r = UInt32.ofNat inputBufSize ↔
        (cons.store c').line.length = inputBufSize := by
      rw [← UInt32.toNat_inj, Cons.line_length, distance_add (lt_of_le_of_lt fits (by decide))]
      rfl
    simp only [full, ← line']
    split
    · obtain ⟨ok', committed⟩ := Cons.Ok.commit fits
      exact ⟨ok', by rw [committed]⟩
    rename_i open'
    refine ⟨⟨fits, fun c mem => ?_⟩, rfl⟩
    rw [line', List.mem_append, List.mem_singleton] at mem
    cases mem with
    | inl old => exact ok.oneLine c old
    | inr new =>
      rintro rfl
      exact open' (.inl new.symm)
  · exact ⟨ok, rfl⟩

/-- `cons.r++`, where there is something to read: the first committed byte goes. -/
theorem Cons.Ok.take (ok : cons.Ok) (some : cons.r ≠ cons.w) :
    cons.line.committed = cons.buf (cons.r.toNat % inputBufSize) ::
      { cons with r := cons.r + 1 }.line.committed ∧ { cons with r := cons.r + 1 }.Ok := by
  constructor
  · exact between_advance inputBufSize_divides some
  constructor
  · have one := distance_advance some
    have bounded := ok.bounded
    dsimp only
    omega
  · exact ok.oneLine

end Ring

/-! ### Readers -/

/-- What is left to read and what has been read are what was asked for. -/
structure ConsReader.Ok (reader : ConsReader) : Prop where
  target : reader.target = reader.n.toUInt32 + UInt32.ofNat reader.out.length
  fits : reader.n.toInt + reader.out.length < 2 ^ 31
  begun : reader.out ≠ [] → 0 ≤ reader.n.toInt

/-- The reader as one with a limit. -/
def ConsReader.line (reader : ConsReader) : LineReader where
  limit := reader.n.toInt.toNat + reader.out.length
  out := reader.out

section Readers

variable {reader : ConsReader}

theorem ConsReader.Ok.length_lt (ok : reader.Ok) : reader.out.length < 2 ^ 31 := by
  have fits := ok.fits
  have begun := ok.begun
  cases empty : reader.out with
  | nil => decide
  | cons =>
    have := begun (by rw [empty]; exact List.cons_ne_nil _ _)
    rw [empty] at fits
    omega

/-- The call returns the number of bytes it has copied. -/
theorem ConsReader.Ok.result (ok : reader.Ok) : reader.result = reader.out.length := by
  have difference : reader.target - reader.n.toUInt32 = UInt32.ofNat reader.out.length := by
    rw [ok.target, UInt32.add_comm, UInt32.add_sub_cancel]
  have signed : (UInt32.ofNat reader.out.length).toInt32 = Int32.ofNat reader.out.length := by
    simp
  rw [ConsReader.result, difference, signed, Int32.toInt_ofNat_of_lt ok.length_lt]

theorem ConsReader.more_iff (reader : ConsReader) :
    reader.out.length < reader.line.limit ↔ 0 < reader.n := by
  have zero : (0 : Int32).toInt = 0 := rfl
  rw [Int32.lt_iff_toInt_lt, zero, ConsReader.line]
  dsimp only
  omega

/-- `n < target` says whether the call has copied something. -/
theorem ConsReader.Ok.begun_iff (ok : reader.Ok) (more : 0 < reader.n) :
    reader.n.toUInt32 < reader.target ↔ reader.out ≠ [] := by
  have pos : 0 < reader.n.toInt := Int32.lt_iff_toInt_lt.mp more
  have left : reader.n.toUInt32.toNat = reader.n.toInt.toNat := by
    rw [Int32.toNat_toUInt32_of_le (Int32.le_iff_toInt_le.mpr (le_of_lt pos))]
    rfl
  have length := ok.length_lt
  have fits := ok.fits
  have sum : reader.target.toNat = reader.n.toInt.toNat + reader.out.length := by
    rw [ok.target, UInt32.toNat_add, left, UInt32.toNat_ofNat_of_lt' (lt_trans length (by decide))]
    omega
  rw [UInt32.lt_iff_toNat_lt, sum, left, ← List.length_pos_iff]
  omega

/-- One more byte has been copied. -/
theorem ConsReader.Ok.copied (ok : reader.Ok) (more : 0 < reader.n) (c : UInt8) :
    ({ reader with n := reader.n - 1, out := reader.out ++ [c] } : ConsReader).Ok ∧
      ({ reader with n := reader.n - 1, out := reader.out ++ [c] } : ConsReader).line =
        { reader.line with out := reader.out ++ [c] } := by
  have pos : 0 < reader.n.toInt := Int32.lt_iff_toInt_lt.mp more
  have upper := reader.n.toInt_lt
  have less : (reader.n - 1).toInt = reader.n.toInt - 1 := by
    have one : (1 : Int32).toInt = 1 := rfl
    rw [Int32.toInt_sub, one, Int.bmod_eq_of_le]
    · omega
    · omega
  have fits := ok.fits
  constructor
  · constructor
    · have word : (reader.n - 1).toUInt32 = reader.n.toUInt32 - 1 := rfl
      rw [word, ok.target, List.length_append, List.length_singleton, UInt32.ofNat_add,
        UInt32.add_comm (UInt32.ofNat reader.out.length), ← UInt32.add_assoc]
      exact congrArg (· + _) (UInt32.sub_add_cancel _ 1).symm
    · dsimp only
      rw [less, List.length_append, List.length_singleton]
      omega
    · intro _
      dsimp only
      omega
  · simp only [ConsReader.line, less, List.length_append, List.length_singleton,
      LineReader.mk.injEq, and_true]
    omega

/-- A round of `consoleread` does to the ring what a reader does to the lines. -/
theorem ConsReader.Ok.round {cons : Cons} (ok : reader.Ok) (consOk : cons.Ok) (dst : Nat → Bool)
    (killed : Bool) :
    (reader.round cons dst killed).1.Ok ∧
      (∀ next, (reader.round cons dst killed).2 = .again next → next.Ok) ∧
      reader.line.round cons.line dst killed = ((reader.round cons dst killed).1.line,
        (reader.round cons dst killed).2.map ConsReader.line) := by
  have out : reader.line.out = reader.out := rfl
  have result := ok.result
  simp only [ConsReader.round, LineReader.round, reader.more_iff, out]
  split
  · rename_i more
    split
    · rename_i none
      have empty : cons.line.committed = [] := between_eq_nil.mpr none
      rw [empty]
      cases killed with
      | true => exact ⟨consOk, fun next absurd => (by cases absurd), rfl⟩
      | false => exact ⟨consOk, fun next absurd => (by cases absurd), rfl⟩
    rename_i some
    obtain ⟨first, taken⟩ := consOk.take some
    rw [first]
    dsimp only
    generalize cons.buf (cons.r.toNat % inputBufSize) = c at first ⊢
    split
    · simp only [ok.begun_iff more]
      split
      · -- The end of file is put back: the index is what it was.
        have back : { cons with r := cons.r + 1 - 1 } = cons := by
          rw [UInt32.add_sub_cancel]
        rw [back, result]
        exact ⟨consOk, fun next absurd => (by cases absurd), rfl⟩
      · rw [result]
        exact ⟨taken, fun next absurd => (by cases absurd), rfl⟩
    split
    · rw [result]
      exact ⟨taken, fun next absurd => (by cases absurd), rfl⟩
    obtain ⟨ok', line'⟩ := ok.copied more c
    split
    · rw [ok'.result]
      exact ⟨taken, fun next absurd => (by cases absurd), rfl⟩
    refine ⟨taken, fun next same => ?_, ?_⟩
    · cases same
      exact ok'
    · simp only [Outcome.map, line']
      rfl
  · rw [result]
    exact ⟨consOk, fun next absurd => (by cases absurd), rfl⟩

end Readers

/-- The console as the code has it is the console as a queue of lines. -/
theorem consOps_refines : consOps.Refines lineOps Cons.line ConsReader.line Cons.Ok ConsReader.Ok where
  intr cons c ok := ok.consoleintr c
  start n := by
    constructor
    · constructor
      · exact (UInt32.add_zero _).symm
      · have upper := n.toInt_lt
        dsimp only [consOps]
        simpa using upper
      · exact fun absurd => (absurd rfl).elim
    · rfl
  round cons reader dst killed consOk ok := ok.round consOk dst killed

/-- The lines a console stands for, with its readers. -/
def ConsoleSys.lines (s : ConsoleSys Cons ConsReader) : ConsoleSys Line LineReader :=
  s.map Cons.line ConsReader.line

/-- The console implements the queue of lines: in every state that characters and readers
lead to, however often the indices wrap around, it keeps at most `INPUT_BUF_SIZE` bytes, its
lines are reached by the same steps of the queue, and every next step is a step of the queue. -/
theorem console_refines {s : ConsoleSys Cons ConsReader}
    (run : Run (ConsoleSys.step consOps) (fun _ _ => True) ConsoleSys.init s) :
    s.device.line.length ≤ inputBufSize ∧
      Run (ConsoleSys.step lineOps) (fun _ _ => True) ConsoleSys.init.lines s.lines ∧
      ∀ act, s.lines.step lineOps act = (s.step consOps act).map ConsoleSys.lines := by
  have start : ConsoleSys.init.Ok Cons.Ok ConsReader.Ok := by
    constructor
    · constructor
      · exact (by decide : (0 - 0 : UInt32).toNat + (0 - 0 : UInt32).toNat ≤ inputBufSize)
      · intro c mem
        cases mem
    · exact fun _ => trivial
  have both : s.Ok Cons.Ok ConsReader.Ok ∧
      Run (ConsoleSys.step lineOps) (fun _ _ => True) ConsoleSys.init.lines s.lines := by
    induction run with
    | refl => exact ⟨start, .refl⟩
    | tail _ _ ran ih =>
      obtain ⟨ok, matched⟩ := ih
      obtain ⟨same, kept⟩ := consOps_refines.step ok _
      refine ⟨kept _ ran, .tail matched trivial (same.trans ?_)⟩
      rw [ran]
      rfl
  exact ⟨both.1.device.le, both.2, fun act => (consOps_refines.step both.1 act).1⟩

/-- A line is typed with a correction, then an end of file and part of a second line; a
reader takes the first line and the end of file, and the second line is killed. -/
theorem console_refines_editing : ∃ s, (Run (ConsoleSys.step consOps) (fun _ _ => True)
      ConsoleSys.init s ∧ s.device.line = { committed := [], edited := [] }) ∧
    s.device.line.length ≤ inputBufSize ∧
    Run (ConsoleSys.step lineOps) (fun _ _ => True) ConsoleSys.init.lines s.lines := by
  have tested : ∃ s, Run (ConsoleSys.step consOps) (fun _ _ => True) ConsoleSys.init s ∧
      s.device.line = { committed := [], edited := [] } :=
    exists_run_of_runFrom _ _ [.consoleread 1 (fun _ => true) 9, .advance 1, .advance 1,
        .intr 97, .intr 98, .intr delete, .intr 99, .intr carriageReturn, .intr ctrlD, .intr 100,
        .advance 1, .advance 1, .advance 1, .advance 1,
        .consoleread 1 (fun _ => true) 9, .advance 1, .advance 1, .intr ctrlU] (by decide +kernel)
  obtain ⟨s, run, line⟩ := tested
  have refined := console_refines run
  exact ⟨s, ⟨run, line⟩, refined.1, refined.2.1⟩

end CustomXv6

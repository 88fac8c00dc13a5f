/-
Module: CustomXv6.Kernel.Uart
Purpose: The transmit buffer of the serial port (kernel/uart.c) under concurrent writers.
Trusted boundary: human-reviewed spec
Main exports: UartSys.uartstart, UartSys.step, uart_transmits
-/
import CustomXv6.Lib.RingBuffer
import CustomXv6.Lib.Transition

namespace CustomXv6

open RingBuffer Transition
open Function

abbrev uartTxBufSize : Nat := 32

/-- A call of `uartputc`: about to take `uart_tx_lock`, asleep on `&uart_tx_r`, or done. -/
inductive Writer where
  | ready
  | asleep
  | done
deriving DecidableEq

/-- What `uart_tx_lock` protects, for the calls `C` of `uartputc`, with the bytes stored in THR
and the calls that are done, oldest first. -/
structure UartSys (C : Type) where
  buf : Nat → UInt8 := fun _ => 0
  w : UInt64 := 0
  r : UInt64 := 0
  writer : C → Writer := fun _ => .ready
  sent : List UInt8 := []
  taken : List C := []

/-- The code from an `acquire` to the `release` or the `sleep`, with what the rounds of
`uartstart` read from `LSR_TX_IDLE`. -/
inductive UartAction (C : Type) where
  | uartputc (call : C) (idle : List Bool)
  | uartintr (idle : List Bool)

namespace UartSys

variable {C : Type}

def uartstart : List Bool → UartSys C → UartSys C
  | [], s => s
  | idle :: later, s =>
    if s.w = s.r then s
    else if idle = false then s
    else uartstart later
      { s with
        r := s.r + 1
        writer := fun call => if s.writer call = .asleep then .ready else s.writer call
        sent := s.sent ++ [s.buf (s.r.toNat % uartTxBufSize)] }

def step [DecidableEq C] (byte : C → UInt8) (s : UartSys C) : UartAction C → Option (UartSys C)
  | .uartputc call idle =>
    if s.writer call ≠ .ready then none
    else if s.w = s.r + 32 then some { s with writer := update s.writer call .asleep }
    else some (uartstart idle
      { s with
        buf := update s.buf (s.w.toNat % uartTxBufSize) (byte call)
        w := s.w + 1
        writer := update s.writer call .done
        taken := s.taken ++ [call] })
  | .uartintr idle => some (uartstart idle s)

/-- The bytes in the buffer. -/
def queued (s : UartSys C) : List UInt8 := stretch s.buf uartTxBufSize (2 ^ 64) s.r.toNat s.w.toNat

structure Inv (byte : C → UInt8) (s : UartSys C) : Prop where
  order : s.taken.map byte = s.sent ++ s.queued
  room : s.queued.length ≤ uartTxBufSize
  full : ∀ call, s.writer call = .asleep → s.queued.length = uartTxBufSize

variable {byte : C → UInt8} {s s' : UartSys C}

/-- The test for a full buffer. -/
theorem full_iff : s.w = s.r + 32 ↔ s.queued.length = uartTxBufSize := by
  have wBound := s.w.toNat_lt
  have rBound := s.r.toNat_lt
  rw [queued, stretch_length, ← UInt64.toNat_inj, UInt64.toNat_add]
  change s.w.toNat = (s.r.toNat + 32) % 2 ^ 64 ↔ _ = 32
  omega

/-- A round of `uartstart` takes the first byte from the buffer, and wakes all who sleep. -/
theorem Inv.uartstart (inv : s.Inv byte) (idle : List Bool) : (uartstart idle s).Inv byte := by
  induction idle generalizing s with
  | nil => exact inv
  | cons _ _ ih =>
    rw [UartSys.uartstart]
    split_ifs with empty
    · exact inv
    · exact inv
    have first : s.queued = s.buf (s.r.toNat % uartTxBufSize) ::
        stretch s.buf uartTxBufSize (2 ^ 64) ((s.r.toNat + 1) % 2 ^ 64) s.w.toNat :=
      stretch_advance ⟨2 ^ 59, rfl⟩ s.r.toNat_lt s.w.toNat_lt
        fun same => empty (UInt64.toNat_inj.mp same.symm)
    obtain ⟨order, room, _⟩ := inv
    rw [first] at order room
    refine ih ⟨?_, Nat.le_of_succ_le room, fun call asleep => ?_⟩
    · rw [order, List.append_cons]
      rfl
    dsimp only at asleep
    split_ifs at asleep with slept
    exact absurd asleep slept

theorem Inv.step [DecidableEq C] {act : UartAction C} (inv : s.Inv byte)
    (ran : s.step byte act = some s') : s'.Inv byte := by
  cases act with
  | uartputc call idle =>
    rw [UartSys.step] at ran
    split_ifs at ran with _ isFull
    · cases ran
      exact ⟨inv.order, inv.room, fun _ _ => full_iff.mp isFull⟩
    cases ran
    have notFull := mt full_iff.mpr isFull
    have room : s.queued.length < uartTxBufSize := Nat.lt_of_le_of_ne inv.room notFull
    have longer := stretch_write (m := 2 ^ 64) ⟨2 ^ 59, rfl⟩ (by decide) s.r.toNat_lt room
      (byte call)
    refine .uartstart ⟨?_, ?_, fun other asleep => ?_⟩ idle
    · change _ = s.sent ++ stretch _ _ _ _ ((s.w.toNat + 1) % 2 ^ 64)
      rw [longer, List.map_append, inv.order, List.append_assoc]
      rfl
    · change (stretch _ _ _ _ ((s.w.toNat + 1) % 2 ^ 64)).length ≤ _
      rw [longer, List.length_append]
      exact room
    -- Nobody sleeps while there is room.
    change update s.writer call .done other = .asleep at asleep
    by_cases same : other = call
    · rw [same, update_self] at asleep
      cases asleep
    · rw [update_of_ne same] at asleep
      exact absurd (inv.full other asleep) notFull
  | uartintr idle =>
    cases ran
    exact inv.uartstart idle

end UartSys

/-- However the calls of `uartputc` and the interrupts of the port interleave, the bytes go out in
the order in which they were put into the buffer and none is lost, also when the counters wrap
around; and a call sleeps only as long as the buffer is full. -/
theorem uart_transmits {C : Type} [DecidableEq C] (byte : C → UInt8) {s : UartSys C}
    (run : Run (UartSys.step byte) (fun _ _ => True) {} s) :
    s.taken.map byte = s.sent ++ s.queued ∧ s.queued.length ≤ 32 ∧
      ∀ call, s.writer call = .asleep → s.queued.length = 32 := by
  have initially : UartSys.Inv byte {} := by
    have nothing : UartSys.queued ({} : UartSys C) = [] := by simp [UartSys.queued, stretch, view]
    exact ⟨nothing.symm, by simp [nothing], by simp⟩
  obtain ⟨order, room, full⟩ := run.invariant initially fun inv _ ran => inv.step ran
  exact ⟨order, room, full⟩

/-- Of two bytes the first one has been sent. -/
theorem uart_transmits_two :
    ∃ s : UartSys UInt8, s.sent = [65] ∧ s.taken.map id = s.sent ++ [66] := by
  have run := run_of_runFrom (show runFrom (UartSys.step id) {} [.uartputc 65 [true],
    .uartputc 66 [false]] = some _ from rfl)
  exact ⟨_, rfl, (uart_transmits id run).1⟩

end CustomXv6

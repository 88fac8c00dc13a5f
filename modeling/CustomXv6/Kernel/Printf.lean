/-
Module: CustomXv6.Kernel.Printf
Purpose: printint (kernel/printf.c) with its buffer of 16 characters.
Trusted boundary: none
Main exports: Printf.printint, Printf.printint_exact
-/
import Mathlib.Tactic.Common

namespace CustomXv6

namespace Printf

/-- `digits`. -/
def digits : List Char := "0123456789abcdef".toList

/-- The first loop of `printint`, with `room` characters of `buf` left and those written so far,
the last one first.  A write behind the end of `buf` is `none`. -/
def digitLoop (base : Nat) : (room x : Nat) → (buf : List Char) → Option (Nat × List Char)
  | 0, _, _ => none
  | room + 1, x, buf =>
    let buf := digits.getD (x % base) '0' :: buf
    if x / base ≠ 0 then digitLoop base room (x / base) buf else some (room, buf)

/-- `printint`: the characters it prints. -/
def printint (xx : Int64) (base : Nat) (sign : Bool) : Option (List Char) := do
  let sign := sign && xx < 0
  let x := if sign then (-xx).toUInt64 else xx.toUInt64
  let (room, buf) ← digitLoop base 16 x.toNat []
  if sign then
    if room = 0 then none else some ('-' :: buf)
  else some buf

/-- The number that `printint` is asked to print, in the given base. -/
def numeral (xx : Int64) (base : Nat) (sign : Bool) : List Char :=
  if sign && xx < 0 then '-' :: base.toDigits xx.toInt.natAbs else base.toDigits xx.toUInt64.toNat

theorem digitLoop_eq {base : Nat} (low : 1 < base) (high : base ≤ 16) (room x : Nat)
    (buf : List Char) : digitLoop base room x buf = if (base.toDigits x).length ≤ room then
      some (room - (base.toDigits x).length, base.toDigits x ++ buf) else none := by
  have digit : ∀ k < 16, digits.getD k '0' = k.digitChar := by decide
  induction room generalizing x buf with
  | zero =>
    rw [if_neg (Nat.not_le.mpr Nat.length_toDigits_pos)]
    rfl
  | succ _ ih =>
    rw [digitLoop, digit _ (Nat.lt_of_lt_of_le (Nat.mod_lt x (Nat.zero_lt_of_lt low)) high)]
    by_cases single : x < base
    · rw [Nat.toDigits_of_lt_base single, if_neg (not_not.mpr (Nat.div_eq_of_lt single)),
        Nat.mod_eq_of_lt single]
      simp
    · have more : x / base ≠ 0 := Nat.ne_of_gt (Nat.div_pos (Nat.le_of_not_lt single) (by omega))
      rw [Nat.toDigits_of_base_le low (Nat.le_of_not_lt single), if_pos more, ih]
      simp

theorem toNat_neg {xx : Int64} (negative : xx < 0) : (-xx).toUInt64.toNat = xx.toInt.natAbs := by
  rw [Int64.lt_iff_toInt_lt] at negative
  rw [← Int64.toNat_toBitVec, Int64.toBitVec_neg, ← Int64.toInt_toBitVec] at *
  generalize xx.toBitVec = bits at *
  rw [BitVec.toInt_eq_toNat_bmod] at *
  simp [BitVec.toNat_neg, Int.bmod] at *
  omega

/-- In base 10 and 16 `printint` prints the numeral if that has at most 16 characters, its sign
included, and otherwise writes behind its buffer. -/
theorem printint_exact (xx : Int64) {base : Nat} (sign : Bool) (known : base = 10 ∨ base = 16) :
    printint xx base sign =
      if (numeral xx base sign).length ≤ 16 then some (numeral xx base sign) else none := by
  have loop := @digitLoop_eq base (by omega) (by omega) 16
  by_cases signed : (sign && xx < 0) = true
  · have negative : xx < 0 := of_decide_eq_true (Bool.and_eq_true_iff.mp signed).2
    simp only [printint, numeral, if_pos signed, toNat_neg negative, loop, List.length_cons]
    by_cases fits : (base.toDigits xx.toInt.natAbs).length + 1 ≤ 16
    · simp [fits, show (base.toDigits xx.toInt.natAbs).length ≤ 16 by omega]
      omega
    rw [if_neg fits]
    split
    · simp
      omega
    · rfl
  · simp only [printint, numeral, if_neg signed, loop]
    split
    · simp
    · rfl

/-- The most negative value in base 16 just fits with its sign left out. -/
theorem printint_exact_minimum : printint Int64.minValue 16 false = some "8000000000000000".toList := by
  rw [printint_exact _ _ (.inr rfl)]
  decide +kernel

/-- `printf("%lu", 10000000000000000)` writes to `buf[16]`. -/
theorem printint_overflows : printint 10000000000000000 10 false = none := by
  decide +kernel

end Printf

end CustomXv6

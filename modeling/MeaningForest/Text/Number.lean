import MeaningForest.Text.Basic

/-!
# Numbers and days in texts

What numerals and dates denote, as far as documents need it to tell numbers and dates from other texts.
-/

namespace MeaningForest.Text

/-- The number that digits denote in a base of at most sixteen, if there is a digit and nothing else. -/
def digitsValue? (base : Nat) (digits : Text) : Option Nat :=
  if digits.isEmpty then none
  else digits.foldlM (fun n b => do
    let d ← hexValue? b
    if d < base then some (n * base + d) else none) 0

/-- Whether an underscore stands anywhere but between two digits; `previous` is the byte before the text, with a zero in
place of any digit. -/
def misplacesUnderscore (isDigit : UInt8 → Bool) : (previous : UInt8) → Text → Bool
  | previous, [] => previous == 0x5f
  | previous, b :: t =>
    if b = 0x5f then previous != 0x30 || misplacesUnderscore isDigit 0x5f t
    else if isDigit b then misplacesUnderscore isDigit 0x30 t
    else previous == 0x5f || misplacesUnderscore isDigit 0x2e t

/-- The least number that a double can no longer hold, half a unit above the largest one. -/
def doubleLimit : Nat := Nat.pow 2 1024 - Nat.pow 2 970

/-- Whether `digits · 10 ^ exponent` rounds to a double.  A number with an integer part of more than 310 digits does
not; a shorter one is compared with the limit. -/
def fitsDouble (digits : Nat) (exponent : Int) : Bool :=
  digits == 0 ||
    (let size : Int := (Nat.toDigits 10 digits).length + exponent
     if size ≤ 0 then true
     else if 310 < size then false
     else if exponent < 0 then digits < doubleLimit * Nat.pow 10 exponent.natAbs
     else digits * Nat.pow 10 exponent.natAbs < doubleLimit)

/-- The number of days of a month. -/
def daysOfMonth (year month : Nat) : Nat :=
  if month = 2 then (if year % 4 = 0 ∧ (year % 100 ≠ 0 ∨ year % 400 = 0) then 29 else 28)
  else if month = 4 ∨ month = 6 ∨ month = 9 ∨ month = 11 then 30
  else 31

end MeaningForest.Text

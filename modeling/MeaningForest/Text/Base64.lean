import MeaningForest.Text.Basic

/-!
# Texts in base 64

Four digits of base 64 stand for three bytes; the last group is filled up with equality signs.
-/

namespace MeaningForest.Text

/-- The value of a digit of base 64. -/
def base64Digit? (b : UInt8) : Option Nat :=
  if 0x41 ≤ b ∧ b ≤ 0x5a then some (b.toNat - 0x41)
  else if 0x61 ≤ b ∧ b ≤ 0x7a then some (b.toNat - 0x47)
  else if isDigit b then some (b.toNat + 4)
  else if b = 0x2b then some 62
  else if b = 0x2f then some 63
  else none

/-- The first `count` of the three bytes that four digits stand for. -/
private def base64Group? (count : Nat) (digits : Text) : Option Text := do
  let n := (← digits.mapM base64Digit?).foldl (fun n d => n * 64 + d) 0
  return [(n / 65536).toUInt8, (n / 256).toUInt8, n.toUInt8].take count

/-- Digits without line breaks. -/
private def base64Groups? : Text → Option Text
  | [] => some []
  | [a, b, 0x3d, 0x3d] => base64Group? 1 [a, b, 0x41, 0x41]
  | [a, b, c, 0x3d] => base64Group? 2 [a, b, c, 0x41]
  | a :: b :: c :: d :: rest => do return (← base64Group? 3 [a, b, c, d]) ++ (← base64Groups? rest)
  | _ => none

/-- The bytes that a text in base 64 stands for; its line breaks do not count. -/
def ofBase64? (t : Text) : Option Text := base64Groups? (t.filter fun b => b != 0x0a && b != 0x0d)

end MeaningForest.Text

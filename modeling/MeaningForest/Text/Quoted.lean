import MeaningForest.Text.Utf8
import MeaningForest.Text.Graphic

/-!
# Quoted texts

A text is quoted between double quotes with backslash escapes for everything that is not printable.  Reading accepts
double quotes with escapes and back quotes, which enclose raw text.
-/

namespace MeaningForest.Text

/-- The letter of a one-letter escape. -/
private def shortEscape? (c : Nat) : Option UInt8 :=
  match c with
  | 0x07 => some 0x61
  | 0x08 => some 0x62
  | 0x0c => some 0x66
  | 0x0a => some 0x6e
  | 0x0d => some 0x72
  | 0x09 => some 0x74
  | 0x0b => some 0x76
  | _ => none

/-- How one code point stands inside double quotes. -/
private def quoteScalar (d : Decoded) (bytes : Text) : Text :=
  if !d.valid then [0x5c, 0x78] ++ hex 2 (bytes.headD 0).toNat
  else if d.scalar = 0x22 ∨ d.scalar = 0x5c then [0x5c, d.scalar.toUInt8]
  else if isPrintable d.scalar then bytes.take d.size
  else match shortEscape? d.scalar with
    | some b => [0x5c, b]
    | none =>
      if d.scalar < 0x20 ∨ d.scalar = 0x7f then [0x5c, 0x78] ++ hex 2 d.scalar
      else if d.scalar < 0x10000 then [0x5c, 0x75] ++ hex 4 d.scalar
      else [0x5c, 0x55] ++ hex 8 d.scalar

private def quoteInner (t : Text) : Text :=
  match t with
  | [] => []
  | a :: rest => quoteScalar (decode a rest) (a :: rest) ++ quoteInner (afterFirst a rest)
termination_by t.length
decreasing_by exact decode_shorter a rest

/-- The text between double quotes, with escapes. -/
def quote (t : Text) : Text := 0x22 :: (quoteInner t ++ [0x22])

/-! ### Reading -/

/-- The number that the hexadecimal digits of a text denote, if it has no other bytes. -/
def hexNumber? (t : Text) : Option Nat :=
  t.foldl (fun acc b => do return (← acc) * 16 + (← hexValue? b)) (some 0)

private def isOctal (b : UInt8) : Bool := 0x30 ≤ b && b ≤ 0x37

/-- The bytes an escape stands for, and the text after it.  The argument is the text after the backslash. -/
private def readEscape? : Text → Option (Text × Text)
  | 0x61 :: r => some ([0x07], r)
  | 0x62 :: r => some ([0x08], r)
  | 0x66 :: r => some ([0x0c], r)
  | 0x6e :: r => some ([0x0a], r)
  | 0x72 :: r => some ([0x0d], r)
  | 0x74 :: r => some ([0x09], r)
  | 0x76 :: r => some ([0x0b], r)
  | 0x5c :: r => some ([0x5c], r)
  | 0x22 :: r => some ([0x22], r)
  | 0x78 :: r => if r.length < 2 then none else (hexNumber? (r.take 2)).map fun n => ([n.toUInt8], r.drop 2)
  | 0x75 :: r => if r.length < 4 then none else scalarOf (hexNumber? (r.take 4)) (r.drop 4)
  | 0x55 :: r => if r.length < 8 then none else scalarOf (hexNumber? (r.take 8)) (r.drop 8)
  | a :: b :: c :: r =>
    if isOctal a && isOctal b && isOctal c then
      let n := ((a.toNat - 0x30) * 8 + (b.toNat - 0x30)) * 8 + (c.toNat - 0x30)
      if n ≤ 255 then some ([n.toUInt8], r) else none
    else none
  | _ => none
where
  scalarOf (n : Option Nat) (r : Text) : Option (Text × Text) :=
    n.bind fun c => if isScalar c then some (encode c, r) else none

/-- Reads up to the closing double quote, which must end the text.  The number bounds the steps. -/
private def unquoteInner? : Nat → Text → Option Text
  | 0, _ => none
  | _ + 1, [] => none
  | _ + 1, [0x22] => some []
  | _ + 1, 0x22 :: _ => none
  | _ + 1, 0x0a :: _ => none
  | n + 1, 0x5c :: r =>
    match readEscape? r with
    | some (bytes, rest) => (unquoteInner? n rest).map (bytes ++ ·)
    | none => none
  | n + 1, a :: r => (unquoteInner? n (afterFirst a r)).map (encode (decode a r).scalar ++ ·)

/-- The text that a quoted one denotes. -/
def unquote? : Text → Option Text
  | 0x22 :: r => unquoteInner? (r.length + 1) r
  | 0x60 :: r =>
    match r.reverse with
    | 0x60 :: inner =>
      if inner.contains 0x60 then none else some (inner.reverse.filter (· != 0x0d))
    | _ => none
  | _ => none

end MeaningForest.Text

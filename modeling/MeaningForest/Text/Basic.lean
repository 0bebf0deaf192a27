/-!
# Text as bytes

Declaration files, names and messages are sequences of bytes that need not be well-formed UTF-8, so a text is a
list of bytes.  This module has string literals as texts, decimal numerals, splitting and joining, and white space.

* `Text.split_ne_nil`: splitting at a byte gives at least one piece.
* `Text.join_split`: joining the pieces with that byte gives the text back.
-/

namespace MeaningForest

/-- A text is its sequence of bytes. -/
abbrev Text := List UInt8

namespace Text

/-- The UTF-8 bytes of a string. -/
def ofString (s : String) : Text := s.toList.flatMap String.utf8EncodeChar

instance : Coe String Text := ⟨ofString⟩

/-- The byte of an ASCII character. -/
def byte (c : Char) : UInt8 := c.toNat.toUInt8

/-! ### Numerals -/

/-- The decimal numeral of a natural number. -/
def ofNat (n : Nat) : Text := (Nat.toDigits 10 n).map byte

/-- The decimal numeral of an integer, with a minus sign when it is negative. -/
def ofInt : Int → Text
  | .ofNat n => ofNat n
  | .negSucc n => 0x2d :: ofNat (n + 1)

/-- The digit of a number below 16, in lower case. -/
def hexDigit (n : Nat) : UInt8 := if n < 10 then (0x30 + n).toUInt8 else (0x57 + n).toUInt8

/-- The last `width` hexadecimal digits of a number. -/
def hex : (width : Nat) → Nat → Text
  | 0, _ => []
  | w + 1, n => hex w (n / 16) ++ [hexDigit (n % 16)]

/-- The value of a hexadecimal digit, either case. -/
def hexValue? (b : UInt8) : Option Nat :=
  if 0x30 ≤ b ∧ b ≤ 0x39 then some (b.toNat - 0x30)
  else if 0x61 ≤ b ∧ b ≤ 0x66 then some (b.toNat - 0x57)
  else if 0x41 ≤ b ∧ b ≤ 0x46 then some (b.toNat - 0x37)
  else none

/-- A decimal digit. -/
def isDigit (b : UInt8) : Bool := 0x30 ≤ b && b ≤ 0x39

/-- A letter of the ASCII alphabet. -/
def isAsciiLetter (b : UInt8) : Bool := (0x61 ≤ b && b ≤ 0x7a) || (0x41 ≤ b && b ≤ 0x5a)

/-- The ASCII capital letters as small ones. -/
def lowerAscii (t : Text) : Text := t.map fun b => if 0x41 ≤ b ∧ b ≤ 0x5a then b + 0x20 else b

/-! ### Pieces -/

/-- Whether `t` begins with `p`. -/
def startsWith (t p : Text) : Bool := p.isPrefixOf t

/-- Whether `t` ends with `p`. -/
def endsWith (t p : Text) : Bool := p.isSuffixOf t

/-- The pieces of a text between the occurrences of a byte. -/
def split (sep : UInt8) : Text → List Text
  | [] => [[]]
  | b :: t =>
    if b = sep then [] :: split sep t
    else match split sep t with
      | [] => [[b]]
      | piece :: pieces => (b :: piece) :: pieces

/-- The pieces with a separator between neighbours. -/
def join (sep : Text) : List Text → Text
  | [] => []
  | [piece] => piece
  | piece :: pieces => piece ++ sep ++ join sep pieces

/-- The lines of a text. -/
def lines (t : Text) : List Text := split 0x0a t

theorem split_ne_nil (sep : UInt8) (t : Text) : split sep t ≠ [] := by
  cases t with
  | nil => simp [split]
  | cons b t =>
    rw [split]
    split
    · simp
    · split <;> simp

theorem join_cons (sep piece : Text) {pieces : List Text} (h : pieces ≠ []) :
    join sep (piece :: pieces) = piece ++ sep ++ join sep pieces := by
  cases pieces with
  | nil => exact absurd rfl h
  | cons p ps => rfl

theorem join_split (sep : UInt8) (t : Text) : join [sep] (split sep t) = t := by
  induction t with
  | nil => rfl
  | cons b t ih =>
    rw [split]
    split
    · rename_i hb
      rw [join_cons _ _ (split_ne_nil sep t), ih, hb]
      rfl
    · rcases hs : split sep t with _ | ⟨piece, pieces⟩
      · exact absurd hs (split_ne_nil sep t)
      · rw [hs] at ih
        cases pieces with
        | nil => simpa [join] using ih
        | cons p ps => simpa [join] using ih

/-- The index of the first occurrence of a byte. -/
def indexOf? (b : UInt8) (t : Text) : Option Nat := t.findIdx? (· == b)

/-- Whether `p` occurs in the text. -/
def includes (p : Text) : Text → Bool
  | [] => p.isEmpty
  | b :: t => startsWith (b :: t) p || includes p t

/-! ### Trimming and white space -/

/-- The text without leading and trailing bytes that satisfy `drop`. -/
def trimWhile (drop : UInt8 → Bool) (t : Text) : Text :=
  ((t.dropWhile drop).reverse.dropWhile drop).reverse

/-- The text without trailing bytes that satisfy `drop`. -/
def trimEndWhile (drop : UInt8 → Bool) (t : Text) : Text := (t.reverse.dropWhile drop).reverse

/-- An ASCII white space byte: tab, line feed, vertical tab, form feed, carriage return or space. -/
def isAsciiSpace (b : UInt8) : Bool := b == 0x20 || (0x09 ≤ b && b ≤ 0x0d)

/-- The number of bytes of the white space character at the start of the text, zero if there is none.  Beyond
ASCII these are U+0085, U+00A0, U+1680, U+2000 to U+200A, U+2028, U+2029, U+202F, U+205F and U+3000. -/
def spaceLength : Text → Nat
  | 0xc2 :: 0x85 :: _ => 2
  | 0xc2 :: 0xa0 :: _ => 2
  | 0xe1 :: 0x9a :: 0x80 :: _ => 3
  | 0xe2 :: 0x80 :: b :: _ => if (0x80 ≤ b ∧ b ≤ 0x8a) ∨ b = 0xa8 ∨ b = 0xa9 ∨ b = 0xaf then 3 else 0
  | 0xe2 :: 0x81 :: 0x9f :: _ => 3
  | 0xe3 :: 0x80 :: 0x80 :: _ => 3
  | b :: _ => if isAsciiSpace b then 1 else 0
  | [] => 0

/-- The number of bytes of the white space character at the end of a text whose bytes are given in reverse. -/
def spaceLengthRev : Text → Nat
  | 0x85 :: 0xc2 :: _ => 2
  | 0xa0 :: 0xc2 :: _ => 2
  | 0x80 :: 0x9a :: 0xe1 :: _ => 3
  | 0x9f :: 0x81 :: 0xe2 :: _ => 3
  | 0x80 :: 0x80 :: 0xe3 :: _ => 3
  | b :: 0x80 :: 0xe2 :: _ => if (0x80 ≤ b ∧ b ≤ 0x8a) ∨ b = 0xa8 ∨ b = 0xa9 ∨ b = 0xaf then 3 else 0
  | b :: _ => if isAsciiSpace b then 1 else 0
  | [] => 0

/-- Drops units from the front while `measure` finds one; a unit has at least one byte. -/
def dropUnits (measure : Text → Nat) (t : Text) : Text :=
  if 0 < measure t then
    match t with
    | [] => []
    | _ :: rest => dropUnits measure (rest.drop (measure t - 1))
  else t
termination_by t.length
decreasing_by simp only [List.length_drop, List.length_cons]; omega

/-- The text without white space characters at its two ends. -/
def trimSpace (t : Text) : Text :=
  (dropUnits spaceLengthRev (dropUnits spaceLength t).reverse).reverse

/-- A text of white space only. -/
def isBlank (t : Text) : Bool := (trimSpace t).isEmpty

/-- The order of texts by their bytes. -/
def le : Text → Text → Bool
  | [], _ => true
  | _ :: _, [] => false
  | a :: s, b :: t => if a = b then le s t else a < b

end Text

end MeaningForest

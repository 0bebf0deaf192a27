import MeaningForest.Yaml.Characters

/-!
# Positions in a YAML document

A document is read as a list of characters.  A cursor has the characters that are left and the place of the first of
them; lines and columns count from zero.
-/

namespace MeaningForest.Yaml

/-- A place in a document. -/
structure Mark where
  line : Nat := 0
  column : Nat := 0
  /-- The number of characters before the place. -/
  index : Nat := 0
  deriving DecidableEq, Repr

/-- What is left of a document. -/
structure Cursor where
  rest : List Nat
  mark : Mark := {}
  /-- The line of the last character before the cursor that is neither a blank nor a line break. -/
  contentLine : Nat := 0
  deriving DecidableEq, Repr

/-- A space or a tab. -/
def isBlank (c : Nat) : Bool := c == 0x20 || c == 0x09

/-- A character that ends a line. -/
def isBreak (c : Nat) : Bool := c == 0x0d || c == 0x0a || c == 0x85 || c == 0x2028 || c == 0x2029

/-- A character of names: a letter, a digit, an underscore or a dash. -/
def isWordScalar (c : Nat) : Bool :=
  c < 0x80 && (Text.isAsciiLetter c.toUInt8 || Text.isDigit c.toUInt8 || c == 0x5f || c == 0x2d)

namespace Cursor

/-- The character a number of places ahead. -/
def ahead? (c : Cursor) (n : Nat) : Option Nat := c.rest[n]?

/-- The next character. -/
def next? (c : Cursor) : Option Nat := c.rest.head?

/-- Whether the next character is a given ASCII character. -/
def sees (c : Cursor) (ch : Char) : Bool := c.next? == some ch.toNat

/-- Whether the next character satisfies a test. -/
def seesAny (c : Cursor) (p : Nat → Bool) : Bool := (c.next?.map p).getD false

/-- Whether a blank, a line break or the end is a number of places ahead. -/
def gapAhead (c : Cursor) (n : Nat) : Bool := ((c.ahead? n).map fun x => isBlank x || isBreak x).getD true

/-- Whether the line ends here. -/
def atLineEnd (c : Cursor) : Bool := (c.next?.map isBreak).getD true

/-- The number of lines that ended since the last character that is neither a blank nor a line break. -/
def linesSinceContent (c : Cursor) : Nat := c.mark.line - c.contentLine

/-- Moves over a number of characters of a line. -/
def skip (c : Cursor) (n : Nat) : Cursor :=
  { rest := c.rest.drop n
    mark := { c.mark with column := c.mark.column + n, index := c.mark.index + n }
    contentLine := if (c.rest.take n).all isBlank then c.contentLine else c.mark.line }

/-- The characters that end the line here, as they count in a scalar, and the cursor on the next line. -/
def takeBreak (c : Cursor) : List Nat × Cursor :=
  let after := fun n => { c with rest := c.rest.drop n, mark := ⟨c.mark.line + 1, 0, c.mark.index + n⟩ }
  match c.rest with
  | 0x0d :: 0x0a :: _ => ([0x0a], after 2)
  | x :: _ => if !isBreak x then ([], c) else if x = 0x2028 ∨ x = 0x2029 then ([x], after 1) else ([0x0a], after 1)
  | [] => ([], c)

/-- Moves over the characters that satisfy a test, none of which ends a line. -/
def skipWhile (p : Nat → Bool) (c : Cursor) : Cursor := c.skip (c.rest.takeWhile p).length

/-- The characters that satisfy a test, and the cursor after them. -/
def takeWhile (p : Nat → Bool) (c : Cursor) : List Nat × Cursor := (c.rest.takeWhile p, c.skipWhile p)

/-- Moves to the end of the line. -/
def skipLine (c : Cursor) : Cursor := c.skipWhile (!isBreak ·)

/-- Moves over blanks and line breaks up to a place; `fuel` is their greatest number. -/
def skipGap (index : Nat) : (fuel : Nat) → Cursor → Cursor
  | 0, c => c
  | fuel + 1, c =>
    if index ≤ c.mark.index then c
    else skipGap index fuel (if c.seesAny isBreak then c.takeBreak.2 else c.skip 1)

/-- Whether three equal marks of a document boundary stand here at the start of a line. -/
def seesBoundary (c : Cursor) (ch : Char) : Bool :=
  c.mark.column == 0 && c.rest.take 3 == List.replicate 3 ch.toNat && c.gapAhead 3

/-- Whether a document starts or ends here. -/
def atBoundary (c : Cursor) : Bool := c.seesBoundary '-' || c.seesBoundary '.'

end Cursor

end MeaningForest.Yaml

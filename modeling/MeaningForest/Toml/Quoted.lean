import MeaningForest.Text.Quoted
import MeaningForest.Toml.Basic

/-!
# Texts in TOML documents

A text stands between double quotes, with escapes, or between single quotes, without.  Between three quotes of either
kind it can have several lines; a line break right after the opening quotes does not count.  Up to two quotes can
precede the three that close it.
-/

namespace MeaningForest.Toml

/-- A byte that ends a line; a carriage return is always followed by a line feed. -/
def isBreak (b : UInt8) : Bool := b == 0x0a || b == 0x0d

/-- A space or a tab. -/
def isBlank (b : UInt8) : Bool := b == 0x20 || b == 0x09

/-- The code point of hexadecimal digits, in UTF-8, and the text after them. -/
private def readCodePoint (digits : Nat) (t : Text) : Option (Text × Text) :=
  if t.length < digits then none
  else match Text.hexNumber? (t.take digits) with
    | none => none
    | some c => if Text.isScalar c then some (Text.encode c, t.drop digits) else none

/-- What an escape stands for, and the text after it.  The argument is the text after the backslash. -/
private def readEscape : Text → Option (Text × Text)
  | 0x62 :: t => some ([0x08], t)
  | 0x74 :: t => some ([0x09], t)
  | 0x6e :: t => some ([0x0a], t)
  | 0x66 :: t => some ([0x0c], t)
  | 0x72 :: t => some ([0x0d], t)
  | 0x65 :: t => some ([0x1b], t)
  | 0x22 :: t => some ([0x22], t)
  | 0x5c :: t => some ([0x5c], t)
  | 0x78 :: t => readCodePoint 2 t
  | 0x75 :: t => readCodePoint 4 t
  | 0x55 :: t => readCodePoint 8 t
  | _ => none

/-- Reads a text with escapes up to its closing quote. -/
def readQuoted : (fuel : Nat) → Text → Option (Text × Text)
  | 0, _ => none
  | _ + 1, [] => none
  | fuel + 1, b :: rest =>
    if b = 0x22 then some ([], rest)
    else if isBreak b then none
    else do
      let (bytes, rest) ← if b = 0x5c then readEscape rest else some ([b], rest)
      let (more, rest) ← readQuoted fuel rest
      return (bytes ++ more, rest)

/-- Reads a text without escapes up to its closing quote. -/
def readLiteral : Text → Option (Text × Text)
  | [] => none
  | b :: rest =>
    if b = 0x27 then some ([], rest)
    else if isBreak b then none
    else (readLiteral rest).map fun (more, rest) => (b :: more, rest)

/-- What the quotes at the start of a text of several lines mean. -/
inductive QuoteRun where
  /-- The first one belongs to the text. -/
  | content
  | closing
  /-- There are too many. -/
  | refused
  deriving DecidableEq, Repr

/-- Judges a quote by the bytes after it and, in reverse, the bytes before it.  Three quotes close the text unless a
fourth follows; two quotes that already belong to the text allow no further ones, except after a backslash. -/
def QuoteRun.of (quote : UInt8) (before after : Text) : QuoteRun :=
  if after.take 2 != [quote, quote] then content
  else if (after.drop 2).head? != some quote then closing
  else if before.take 2 == [quote, quote] && (before.drop 2).head? != some 0x5c then refused
  else content

/-- An escape in a text of several lines: a backslash at the end of a line removes the white space up to the next
text. -/
private def readLongEscape (t : Text) : Option (Text × Text) :=
  let gap := t.takeWhile fun b => isBlank b || isBreak b
  if gap.isEmpty then readEscape t
  else if gap.contains 0x0a then some ([], t.drop gap.length)
  else none

/-- Reads a text of several lines up to its closing quotes.  `before` has the bytes before it in reverse. -/
def readLong (quote : UInt8) (escapes : Bool) : (fuel : Nat) → (before : Text) → Text → Option (Text × Text)
  | 0, _, _ => none
  | _ + 1, _, [] => none
  | fuel + 1, before, b :: rest =>
    let run := QuoteRun.of quote before rest
    if b = quote ∧ run = .closing then some ([], rest.drop 2)
    else if b = quote ∧ run = .refused then none
    else do
      let (bytes, after) ← if b = 0x5c ∧ escapes then readLongEscape rest else some ([b], rest)
      let (more, last) ← readLong quote escapes fuel
        ((rest.take (rest.length - after.length)).reverse ++ b :: before) after
      return (bytes ++ more, last)

/-- The text without a line break at its start. -/
private def dropFirstBreak : Text → Text
  | 0x0a :: t => t
  | 0x0d :: 0x0a :: t => t
  | t => t

/-- Reads a text of any kind that starts with a quote. -/
def readText : Text → Option (Text × Text)
  | 0x22 :: 0x22 :: 0x22 :: t => readLong 0x22 true (t.length + 1) [] (dropFirstBreak t)
  | 0x27 :: 0x27 :: 0x27 :: t => readLong 0x27 false (t.length + 1) [] (dropFirstBreak t)
  | 0x22 :: t => readQuoted (t.length + 1) t
  | 0x27 :: t => readLiteral t
  | _ => none

/-- Reads one part of a key. -/
def readPart : Text → Option (Text × Text)
  | 0x22 :: t => readQuoted (t.length + 1) t
  | 0x27 :: t => readLiteral t
  | t =>
    let part := t.takeWhile isBareByte
    if part.isEmpty then none else some (part, t.drop part.length)

end MeaningForest.Toml

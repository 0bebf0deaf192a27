import MeaningForest.Text.Utf8

/-!
# TOML documents

A TOML document is a sequence of statements: headers of tables and entries of a key and a value.  Numbers and dates
have no content here, since no setting is one.
-/

namespace MeaningForest.Toml

/-- The parts of a dotted key. -/
abbrev Key := List Text

/-- A byte of a part of a key that needs no quotes. -/
def isBareByte (b : UInt8) : Bool := Text.isAsciiLetter b || Text.isDigit b || b == 0x5f || b == 0x2d

/-- How a byte stands between quotes in the text of a key. -/
private def escapeByte (b : UInt8) : Text :=
  match b with
  | 0x22 => [0x5c, 0x22]
  | 0x5c => [0x5c, 0x5c]
  | 0x08 => [0x5c, 0x62]
  | 0x09 => [0x5c, 0x74]
  | 0x0a => [0x5c, 0x6e]
  | 0x0c => [0x5c, 0x66]
  | 0x0d => [0x5c, 0x72]
  | b => if b < 0x20 ∨ b = 0x7f then [0x5c, 0x75] ++ Text.hex 4 b.toNat else [b]

/-- The text of one part of a key, between quotes if it needs them. -/
def partText (part : Text) : Text :=
  if !part.isEmpty && part.all isBareByte then part else [0x22] ++ part.flatMap escapeByte ++ [0x22]

/-- The text of a key. -/
def keyText (key : Key) : Text := Text.join "." (key.map partText)

mutual

/-- A value. -/
inductive Value where
  | text (t : Text)
  | flag (b : Bool)
  /-- A number or a date. -/
  | scalar
  | array (items : Items)
  | table (entries : Entries)

/-- The values of an array. -/
inductive Items where
  | nil
  | cons (item : Value) (rest : Items)

/-- The entries of an inline table. -/
inductive Entries where
  | nil
  | cons (key : Key) (value : Value) (rest : Entries)

end

/-- A statement of a document. -/
inductive Statement where
  /-- The header of a table. -/
  | table (key : Key)
  /-- The header of a further table of a list of tables. -/
  | tables (key : Key)
  /-- An entry of the table whose header comes before. -/
  | entry (key : Key) (value : Value)

end MeaningForest.Toml

import MeaningForest.Toml.Number
import MeaningForest.Toml.Quoted

/-!
# Reading TOML documents

A document is read into its statements.  Entries and headers end with their line; arrays and inline tables can have
several lines, comments and a comma after their last element.
-/

namespace MeaningForest.Toml

/-! ### Gaps -/

/-- The text after a comment, whose line break stays. -/
private def afterComment (t : Text) : Text := t.dropWhile (!isBreak ·)

/-- The text after blanks. -/
private def afterBlanks (t : Text) : Text := t.dropWhile isBlank

/-- The text after blanks, line breaks and comments. -/
private def afterGaps : (fuel : Nat) → Text → Text
  | 0, t => t
  | fuel + 1, t =>
    match t.dropWhile fun b => isBlank b || isBreak b with
    | 0x23 :: rest => afterGaps fuel (afterComment rest)
    | rest => rest

/-- The text after the end of a line, which can have a comment. -/
private def afterLine (t : Text) : Option Text :=
  match afterBlanks t with
  | [] => some []
  | 0x23 :: rest => some (afterComment rest)
  | b :: rest => if isBreak b then some rest else none

/-! ### Keys and values -/

/-- Reads a dotted key; blanks around its dots do not count. -/
private def readKey : (fuel : Nat) → Text → Option (Key × Text)
  | 0, _ => none
  | fuel + 1, t => do
    let (part, rest) ← readPart (afterBlanks t)
    match afterBlanks rest with
    | 0x2e :: rest =>
      let (parts, rest) ← readKey fuel rest
      return (part :: parts, rest)
    | rest => return ([part], rest)

/-- Reads a key and the equality sign after it. -/
private def readAssigned (t : Text) : Option (Key × Text) := do
  match ← readKey (t.length + 1) t with
  | (key, 0x3d :: rest) => return (key, afterBlanks rest)
  | _ => none

/-- Reads a value without parts. -/
private def readSimple (t : Text) : Option (Value × Text) :=
  match t with
  | [] => none
  | b :: _ =>
    if b = 0x22 ∨ b = 0x27 then (readText t).map fun (text, rest) => (.text text, rest)
    else if Text.startsWith t "true" then some (.flag true, t.drop 4)
    else if Text.startsWith t "false" then some (.flag false, t.drop 5)
    else match Numeral.cut? t with
      | some (n, rest) => if n.isValid then some (.scalar, rest) else none
      | none => none

mutual

/-- Reads a value. -/
private def readValue : (fuel : Nat) → Text → Option (Value × Text)
  | 0, _ => none
  | fuel + 1, 0x5b :: t => (readItems fuel t).map fun (items, rest) => (.array items, rest)
  | fuel + 1, 0x7b :: t => (readEntries fuel t).map fun (entries, rest) => (.table entries, rest)
  | _ + 1, t => readSimple t

/-- Reads the rest of an array. -/
private def readItems : (fuel : Nat) → Text → Option (Items × Text)
  | 0, _ => none
  | fuel + 1, t =>
    match afterGaps t.length t with
    | 0x5d :: rest => some (.nil, rest)
    | t => do
      let (item, rest) ← readValue fuel t
      match afterGaps rest.length rest with
      | 0x2c :: rest =>
        let (items, rest) ← readItems fuel rest
        return (.cons item items, rest)
      | 0x5d :: rest => return (.cons item .nil, rest)
      | _ => none

/-- Reads the rest of an inline table. -/
private def readEntries : (fuel : Nat) → Text → Option (Entries × Text)
  | 0, _ => none
  | fuel + 1, t =>
    match afterGaps t.length t with
    | 0x7d :: rest => some (.nil, rest)
    | t => do
      let (key, rest) ← readAssigned t
      let (value, rest) ← readValue fuel rest
      match afterGaps rest.length rest with
      | 0x2c :: rest =>
        let (entries, rest) ← readEntries fuel rest
        return (.cons key value entries, rest)
      | 0x7d :: rest => return (.cons key value .nil, rest)
      | _ => none

end

/-! ### Statements -/

/-- Reads one statement. -/
private def readStatement (t : Text) : Option (Statement × Text) := do
  match t with
  | 0x5b :: 0x5b :: t =>
    match ← readKey (t.length + 1) t with
    | (key, 0x5d :: 0x5d :: rest) => return (.tables key, rest)
    | _ => none
  | 0x5b :: t =>
    match ← readKey (t.length + 1) t with
    | (key, 0x5d :: rest) => return (.table key, rest)
    | _ => none
  | t =>
    let (key, rest) ← readAssigned t
    let (value, rest) ← readValue (rest.length + 1) rest
    return (.entry key value, rest)

/-- Reads the statements of a document. -/
private def readStatements : (fuel : Nat) → Text → Option (List Statement)
  | 0, _ => none
  | fuel + 1, t =>
    match afterGaps (t.length + 1) t with
    | [] => some []
    | t => do
      let (s, rest) ← readStatement t
      let more ← readStatements fuel (← afterLine rest)
      return s :: more

/-- The document without the mark of its encoding. -/
private def withoutMark : Text → Text
  | 0xff :: 0xfe :: t => t
  | 0xfe :: 0xff :: t => t
  | 0xef :: 0xbb :: 0xbf :: t => t
  | t => t

/-- Whether a document has only characters that are allowed: well-formed ones, no control characters other than tabs
and line breaks, and a line feed after every carriage return. -/
private def isAllowed (t : Text) : Bool :=
  Text.isWellFormed t &&
    (t.zip ((t.drop 1).map some ++ [none])).all fun (b, after) =>
      if b = 0x0d then after == some 0x0a else b == 0x09 || b == 0x0a || (0x20 ≤ b && b != 0x7f)

/-- The statements of a document, or nothing if it is malformed. -/
def read? (t : Text) : Option (List Statement) :=
  let t := withoutMark t
  if isAllowed t then readStatements (t.length + 1) t else none

end MeaningForest.Toml

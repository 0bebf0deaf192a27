import MeaningForest.Text.Number
import MeaningForest.Text.Utf8

/-!
# Tokens of host code

Host code is cut into identifiers, literals, reserved words, brackets and operators.  A line that ends in a token
that can end a statement is closed by a semicolon of its own; a comment counts as a blank, or as a line end if it
spans lines.  Cutting fails on ill-formed literals, on bytes that belong to no token, on zero bytes, on a byte order
mark and on text that is not UTF-8.
-/

namespace MeaningForest.Host

/-- The kinds of literals. -/
inductive LiteralKind where
  | number
  | char
  | string
  deriving DecidableEq, Repr

/-- A token of host code. -/
inductive Token where
  | ident (name : Text)
  | literal (kind : LiteralKind) (text : Text)
  | keyword (word : String)
  | op (mark : String)
  | lparen
  | rparen
  | lbrack
  | rbrack
  | lbrace
  | rbrace
  | comma
  | colon
  | period
  | ellipsis
  /-- A semicolon, written or implied by the end of a line. -/
  | semicolon (written : Bool)
  deriving DecidableEq, Repr

/-- The reserved words. -/
def reservedWords : List String :=
  ["break", "case", "chan", "const", "continue", "default", "defer", "else", "fallthrough", "for", "func", "go",
    "goto", "if", "import", "interface", "map", "package", "range", "return", "select", "struct", "switch", "type",
    "var"]

/-- The token of a word. -/
def Token.ofWord (t : Text) : Token :=
  match reservedWords.find? fun w => Text.ofString w == t with
  | some w => keyword w
  | none => ident t

/-- Whether a line that ends in this token is closed by a semicolon. -/
def Token.endsLine : Token → Bool
  | ident _ | literal .. | rparen | rbrack | rbrace => true
  | keyword w => w == "break" || w == "continue" || w == "fallthrough" || w == "return"
  | op m => m == "++" || m == "--"
  | _ => false

/-- The marks of more than one byte, longer ones before their beginnings. -/
def longMarks : List String :=
  ["<<=", ">>=", "&^=", "...", "&&", "||", "<-", "++", "--", "==", "!=", "<=", ">=", ":=", "+=", "-=", "*=", "/=",
    "%=", "&=", "|=", "^=", "<<", ">>", "&^"]

/-- The operators of one byte. -/
def shortMarks : List String := ["+", "-", "*", "/", "%", "<", ">", "!", "&", "|", "^", "~", "="]

/-- Whether a text can be cut at all. -/
def isClean (t : Text) : Bool :=
  (Text.decodeAll t).all fun d => d.valid && d.scalar != 0 && d.scalar != 0xfeff

/-! ### Words -/

/-- A code point that starts a word. -/
def isWordStart (c : Nat) : Bool :=
  if c < 0x80 then Text.isAsciiLetter c.toUInt8 || c == 0x5f else Text.isLetter c

/-- A code point inside a word. -/
def isWordPart (c : Nat) : Bool :=
  isWordStart c || (if c < 0x80 then Text.isDigit c.toUInt8 else Text.isDecimal c)

/-- The number of bytes of the word at the start of a text. -/
def wordLength (t : Text) : Nat :=
  match t with
  | [] => 0
  | a :: rest =>
    if isWordPart (Text.decode a rest).scalar then
      (Text.decode a rest).size + wordLength (Text.afterFirst a rest)
    else 0
termination_by t.length
decreasing_by exact Text.decode_shorter a rest

/-! ### Numbers -/

/-- The base marks of numerals. -/
inductive Radix where
  | decimal
  /-- A leading zero without a letter. -/
  | zero
  | hexadecimal
  | octal
  | binary
  deriving DecidableEq, Repr

def isHexDigit (b : UInt8) : Bool := (Text.hexValue? b).isSome

def lowerByte (b : UInt8) : UInt8 := if 0x41 ≤ b ∧ b ≤ 0x5a then b + 0x20 else b

/-- The radix of the numeral at the start of a text and the number of bytes that mark it. -/
def radixOf : Text → Radix × Nat
  | 0x30 :: b :: _ =>
    if lowerByte b = 0x78 then (.hexadecimal, 2)
    else if lowerByte b = 0x6f then (.octal, 2)
    else if lowerByte b = 0x62 then (.binary, 2)
    else (.zero, 1)
  | [0x30] => (.zero, 1)
  | _ => (.decimal, 0)

/-- The bytes a run of digits may have. -/
def isDigitOf (r : Radix) (b : UInt8) : Bool :=
  b == 0x5f || (if r = .hexadecimal then isHexDigit b else Text.isDigit b)

/-- Whether an underscore stands anywhere but between two digits; a base mark counts as a digit. -/
def misplacesUnderscore (t : Text) : Bool :=
  match radixOf t with
  | (.decimal, _) | (.zero, _) => Text.misplacesUnderscore Text.isDigit 0x2e t
  | (.hexadecimal, n) => Text.misplacesUnderscore isHexDigit 0x30 (t.drop n)
  | (_, n) => Text.misplacesUnderscore Text.isDigit 0x30 (t.drop n)

/-- The parts of a numeral. -/
structure Numeral where
  radix : Radix
  /-- The number of bytes of the base mark. -/
  mark : Nat
  whole : Text
  /-- The digits after the point, with it. -/
  fraction : Text
  /-- The exponent with its mark and sign. -/
  exponent : Text
  /-- The mark of an imaginary numeral, if it is one. -/
  imaginary : Text
  deriving DecidableEq, Repr

/-- The point and the digits after it at the start of a text. -/
def fractionOf (r : Radix) : Text → Text
  | [] => []
  | b :: t => if b = 0x2e then b :: t.takeWhile (isDigitOf r) else []

/-- The first byte of a text, if it is one of the given ones. -/
def oneOf (bytes : List UInt8) : Text → Text
  | [] => []
  | b :: _ => if bytes.contains b then [b] else []

/-- The sign at the start of a text. -/
def signOf (t : Text) : Text := oneOf [0x2b, 0x2d] t

/-- The exponent at the start of a text. -/
def exponentOf : Text → Text
  | [] => []
  | b :: t =>
    if lowerByte b = 0x65 ∨ lowerByte b = 0x70 then
      b :: (signOf t ++ (t.drop (signOf t).length).takeWhile (isDigitOf .decimal))
    else []

namespace Numeral

/-- The numeral at the start of a text. -/
def ofText (t : Text) : Numeral :=
  let radix := (radixOf t).1
  let mark := (radixOf t).2
  let t := t.drop mark
  let whole := t.takeWhile (isDigitOf radix)
  let t := t.drop whole.length
  let fraction := fractionOf radix t
  let t := t.drop fraction.length
  let exponent := exponentOf t
  ⟨radix, mark, whole, fraction, exponent, oneOf [0x69] (t.drop exponent.length)⟩

/-- The number of bytes of a numeral. -/
def length (n : Numeral) : Nat :=
  n.mark + n.whole.length + n.fraction.length + n.exponent.length + n.imaginary.length

/-- The digits before the exponent. -/
def digits (n : Numeral) : Text := (n.whole ++ n.fraction.drop 1).filter (· != 0x5f)

/-- Whether the exponent is one for the radix; hexadecimal numerals with a point need one. -/
def exponentFits (n : Numeral) : Bool :=
  match n.exponent with
  | [] => n.radix ≠ .hexadecimal || n.fraction.isEmpty
  | b :: e =>
    (if lowerByte b = 0x65 then n.radix = .decimal || n.radix = .zero else n.radix = .hexadecimal) && e.any Text.isDigit

/-- Whether the digits are below the radix.  Decimal fractions and imaginary numerals may start with a zero. -/
def digitsFit (n : Numeral) : Bool :=
  if n.fraction.isEmpty && n.exponent.isEmpty && n.imaginary.isEmpty && n.radix ≠ .hexadecimal then
    let limit : UInt8 :=
      if n.radix = .binary then 0x32 else if n.radix = .octal || n.radix = .zero then 0x38 else 0x3a
    n.digits.all (· < limit)
  else true

/-- Whether the parts make a numeral. -/
def isWellFormed (n : Numeral) : Bool :=
  (n.fraction.isEmpty || !(n.radix = .octal || n.radix = .binary)) && (!n.digits.isEmpty || n.radix = .zero) &&
    n.exponentFits && n.digitsFit

end Numeral

/-- The number of bytes of the numeral at the start of a text; none if it is ill-formed. -/
def numeralLength? (t : Text) : Option Nat :=
  let n := Numeral.ofText t
  if n.isWellFormed && !misplacesUnderscore (t.take n.length) then some n.length else none

/-! ### Quoted literals -/

def isOctalDigit (b : UInt8) : Bool := 0x30 ≤ b && b ≤ 0x37

/-- Checks digits of an escape and that they denote a code point up to `max`. -/
def checkEscape (base max : Nat) (digits : Text) (length : Nat) : Option Nat :=
  if digits.length ≠ length then none
  else match Text.digitsValue? base digits with
    | none => none
    | some n => if n ≤ max ∧ ¬ (0xd800 ≤ n ∧ n < 0xe000) then some length else none

/-- The number of bytes of an escape after its backslash. -/
def escapeLength? (quote : UInt8) : Text → Option Nat
  | [] => none
  | b :: t =>
    if b = quote ∨ (Text.ofString "abfnrtv\\").contains b then some 1
    else if isOctalDigit b then checkEscape 8 255 ((b :: t).take 3) 3
    else if b = 0x78 then (checkEscape 16 255 (t.take 2) 2).map (· + 1)
    else if b = 0x75 then (checkEscape 16 0x10ffff (t.take 4) 4).map (· + 1)
    else if b = 0x55 then (checkEscape 16 0x10ffff (t.take 8) 8).map (· + 1)
    else none

/-- The number of bytes up to and with the closing mark, and of the characters before it. -/
def quotedLength? (quote : UInt8) : Nat → Text → Option (Nat × Nat)
  | 0, _ => none
  | _ + 1, [] => none
  | n + 1, b :: t =>
    if b = 0x0a then none
    else if b = quote then some (1, 0)
    else if b = 0x5c then do
      let e ← escapeLength? quote t
      let (bytes, chars) ← quotedLength? quote n (t.drop e)
      return (bytes + e + 1, chars + 1)
    else do
      let size := (Text.decode b t).size
      let (bytes, chars) ← quotedLength? quote n (t.drop (size - 1))
      return (bytes + size, chars + 1)

/-- The literal that starts with quote mark `b`, and the number of its bytes. -/
def quoted? (b : UInt8) (t : Text) : Option (Token × Nat) :=
  if b = 0x22 then do
    let (n, _) ← quotedLength? 0x22 (t.length + 1) t
    return (.literal .string (b :: t.take n), n + 1)
  else if b = 0x27 then do
    let (n, chars) ← quotedLength? 0x27 (t.length + 1) t
    if chars = 1 then return (.literal .char (b :: t.take n), n + 1) else none
  else do
    let n ← Text.indexOf? 0x60 t
    return (.literal .string ((b :: t.take (n + 1)).filter (· != 0x0d)), n + 2)

/-! ### Marks -/

/-- The token of a bracket or separator. -/
def bracket? (b : UInt8) : Option Token :=
  match b with
  | 0x28 => some .lparen
  | 0x29 => some .rparen
  | 0x5b => some .lbrack
  | 0x5d => some .rbrack
  | 0x7b => some .lbrace
  | 0x7d => some .rbrace
  | 0x2c => some .comma
  | 0x3a => some .colon
  | 0x2e => some .period
  | 0x3b => some (.semicolon true)
  | _ => none

/-- The operator, bracket or separator at the start of a text, and the number of its bytes. -/
def mark? (t : Text) : Option (Token × Nat) :=
  match longMarks.find? fun m : String => t.startsWith m with
  | some "..." => some (.ellipsis, 3)
  | some m => some (.op m, m.length)
  | none =>
    match t.head?.bind bracket? with
    | some k => some (k, 1)
    | none => (shortMarks.find? fun m : String => t.startsWith m).map fun m => (.op m, 1)

/-- The token at the start of a text and the number of its bytes. -/
def token? : Text → Option (Token × Nat)
  | [] => none
  | b :: t =>
    if isWordStart (Text.decode b t).scalar then
      let n := wordLength (b :: t)
      some (.ofWord ((b :: t).take n), n)
    else if Text.isDigit b || (b == 0x2e && (t.head?.map Text.isDigit).getD false) then do
      let n ← numeralLength? (b :: t)
      return (.literal .number ((b :: t).take n), n)
    else if b = 0x22 ∨ b = 0x27 ∨ b = 0x60 then quoted? b t
    else mark? (b :: t)

/-! ### Comments -/

/-- The text before the last colon of a text and the number after it, which has at most 64 bits. -/
def trailingNumber? (t : Text) : Option (Text × Option Nat) :=
  let digits := (t.reverse.takeWhile (· != 0x3a)).reverse
  if digits.length == t.length then none
  else some (t.take (t.length - digits.length - 1), (Text.digitsValue? 10 digits).filter (· < Nat.pow 2 64))

/-- Whether a number can be that of a line or a column.  Numbers of 64 bits count as negative, which is not checked. -/
def isPlaceNumber (n : Nat) : Bool := (1 ≤ n && n ≤ Nat.pow 2 30) || Nat.pow 2 63 ≤ n

/-- Whether the content of a comment can stand.  One that starts with the word `line` and ends in a colon and a number
says where the code comes from, by a line or by a line and a column. -/
def commentFits (content : Text) : Bool :=
  if !Text.startsWith content "line " then true
  else match trailingNumber? (content.drop 5) with
    | none => true
    | some (_, none) => false
    | some (file, some n) =>
      isPlaceNumber n && match trailingNumber? file with
        | some (_, some line) => isPlaceNumber line
        | _ => true

/-- The bytes of a block comment after its opening mark, through the closing one. -/
def blockLength? : Text → Option Nat
  | [] => none
  | 0x2a :: 0x2f :: _ => some 2
  | _ :: t => (blockLength? t).map (· + 1)

/-! ### Cutting -/

/-- Cuts a text; `open_` tells whether the current line needs a closing semicolon and `fresh` whether it starts here.
The number bounds the steps. -/
def cut : Nat → (open_ fresh : Bool) → Text → Option (List Token)
  | 0, _, _, _ => none
  | _ + 1, open_, _, [] => some (if open_ then [.semicolon false] else [])
  | n + 1, open_, fresh, b :: t =>
    if b = 0x20 ∨ b = 0x09 ∨ b = 0x0d then cut n open_ false t
    else if b = 0x0a then
      if open_ then (cut n false true t).map (.semicolon false :: ·) else cut n false true t
    else if b = 0x2f ∧ t.head? = some 0x2f then
      let content := (t.drop 1).takeWhile (· != 0x0a)
      let content := if content.getLast? = some 0x0d then content.dropLast else content
      if fresh && !commentFits content then none else cut n open_ false (t.dropWhile (· != 0x0a))
    else if b = 0x2f ∧ t.head? = some 0x2a then do
      let size ← blockLength? (t.drop 1)
      if !commentFits ((t.drop 1).take (size - 2)) then none
      if open_ && ((t.drop 1).take size).contains 0x0a then
        (cut n false false (t.drop (1 + size))).map (.semicolon false :: ·)
      else cut n open_ false (t.drop (1 + size))
    else do
      let (tok, size) ← token? (b :: t)
      (cut n tok.endsLine false (t.drop (size - 1))).map (tok :: ·)

/-- The tokens of a text. -/
def tokens? (t : Text) : Option (List Token) := if isClean t then cut (t.length + 1) false true t else none

end MeaningForest.Host

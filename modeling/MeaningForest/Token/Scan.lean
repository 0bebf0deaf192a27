import MeaningForest.Fault
import MeaningForest.Token.Basic

/-!
# Reading tokens

A source text is cut into tokens from left to right.  `Lexeme.measure` looks at the bytes where a token starts and
says which kind it is and how many bytes belong to it; places are counted over the bytes that were passed.  A zero
byte ends the source.

There is one source that cannot be cut: a quoted literal whose last byte is the backslash of an escape, which would
end beyond the source.
-/

namespace MeaningForest

/-- A place in a source together with its offset. -/
structure Mark where
  offset : Nat
  position : Position
  deriving DecidableEq, Repr

namespace Mark

/-- The start of a source. -/
def start : Mark := ⟨0, ⟨1, 1⟩⟩

/-- The place after one more byte. -/
def step (m : Mark) (b : UInt8) : Mark :=
  ⟨m.offset + 1, if b = 0x0a then ⟨m.position.line + 1, 1⟩ else ⟨m.position.line, m.position.column + 1⟩⟩

/-- The place after some more bytes. -/
def advance (m : Mark) (t : Text) : Mark := t.foldl step m

end Mark

namespace Lexeme

/-- The bytes between tokens: space, tab, line feed and carriage return. -/
def isGap (b : UInt8) : Bool := b == 0x20 || b == 0x09 || b == 0x0a || b == 0x0d

/-- Letters of words: ASCII letters, the underscore and every byte beyond ASCII. -/
def isWordStart (b : UInt8) : Bool := Text.isAsciiLetter b || b == 0x5f || 0x80 ≤ b

/-- Letters and digits. -/
def isWordPart (b : UInt8) : Bool := isWordStart b || Text.isDigit b

/-- The number of leading bytes that satisfy `p`. -/
def span (p : UInt8 → Bool) (t : Text) : Nat := (t.takeWhile p).length

/-- The rest of a line comment: everything before the line feed or zero byte. -/
def lineRest (t : Text) : Nat := span (fun b => b != 0x0a && b != 0) t

/-- The rest of a block comment: through the closing mark, or before a zero byte. -/
def blockRest : Text → Nat
  | [] => 0
  | 0x2a :: 0x2f :: _ => 2
  | b :: t => if b = 0 then 0 else blockRest t + 1

/-- The rest of a raw literal: through the closing back quote, or before a zero byte. -/
def rawRest : Text → Nat
  | [] => 0
  | b :: t => if b = 0x60 then 1 else if b = 0 then 0 else rawRest t + 1

/-- The rest of a literal between `quote` marks: through the closing mark, or before a line feed or zero byte.  The
byte after a backslash always belongs to the literal; there is none after a final backslash. -/
def quotedRest (quote : UInt8) : Text → Option Nat
  | [] => some 0
  | [b] => if b = 0x5c then none else if b = quote then some 1 else if b = 0 ∨ b = 0x0a then some 0 else some 1
  | b :: c :: t =>
    if b = 0x5c then (quotedRest quote t).map (· + 2)
    else if b = quote then some 1
    else if b = 0 ∨ b = 0x0a then some 0
    else (quotedRest quote (c :: t)).map (· + 1)

/-- Decimal digits and the underscores between them. -/
def isNumeralPart (b : UInt8) : Bool := Text.isDigit b || b == 0x5f

/-- Hexadecimal digits and the underscores between them. -/
def isHexPart (b : UInt8) : Bool := (Text.hexValue? b).isSome || b == 0x5f

/-- The marks of a numeral in another base after its leading zero. -/
def isBaseMark (b : UInt8) : Bool :=
  b == 0x78 || b == 0x58 || b == 0x62 || b == 0x42 || b == 0x6f || b == 0x4f

/-- The fraction of a numeral: a point with a digit after it. -/
def fraction : Text → Nat
  | 0x2e :: d :: t => if Text.isDigit d then 1 + span isNumeralPart (d :: t) else 0
  | _ => 0

/-- The exponent of a numeral, which may lack digits. -/
def exponent : Text → Nat
  | [] => 0
  | e :: t =>
    if e = 0x65 ∨ e = 0x45 then
      match t with
      | s :: r => if s = 0x2b ∨ s = 0x2d then 2 + span Text.isDigit r else 1 + span Text.isDigit t
      | [] => 1
    else 0

/-- The rest of a numeral that starts with digit `b`. -/
def numeral (b : UInt8) (t : Text) : TokenKind × Nat :=
  if b = 0x30 ∧ (t.head?.map isBaseMark).getD false then
    (.int, 1 + span isHexPart (t.drop 1))
  else
    let whole := span isNumeralPart t
    let frac := fraction (t.drop whole)
    let exp := exponent (t.drop (whole + frac))
    (if frac = 0 ∧ exp = 0 then .int else .float, whole + frac + exp)

/-- The operators of more than one byte, in the order in which they are tried. -/
def operators : List Text :=
  ["<<=", ">>=", "&^=", "&&", "||", "<-", "++", "--", "==", "!=", "<=", ">=", ":=", "+=", "-=", "*=", "/=", "%=",
    "&=", "|=", "^=", "<<", ">>", "&^"]

/-- The kind of a token of one byte. -/
def single (b : UInt8) : TokenKind :=
  if b = 0x3d then .assign
  else if b = 0x2c then .comma
  else if b = 0x3b then .semicolon
  else if b = 0x3a then .colon
  else if b = 0x2e then .dot
  else if b = 0x28 then .lparen
  else if b = 0x29 then .rparen
  else if b = 0x5b then .lbracket
  else if b = 0x5d then .rbracket
  else if b = 0x7b then .lbrace
  else if b = 0x7d then .rbrace
  else if (Text.ofString "+-*/%<>!&|^~?").contains b then .operator
  else .illegal

/-- Dots: three make an ellipsis, two are illegal. -/
def dots? (b : UInt8) (t : Text) : Option (TokenKind × Nat) :=
  if b = 0x2e ∧ t.head? = some 0x2e then
    if t.startsWith [0x2e, 0x2e] then some (.ellipsis, 2) else some (.illegal, 1)
  else none

/-- Operators and single bytes. -/
def symbolic (b : UInt8) (t : Text) : TokenKind × Nat :=
  match operators.find? fun op => Text.startsWith (b :: t) op with
  | some op => (.operator, op.length - 1)
  | none => (single b, 0)

/-- The kind of the token that starts with byte `b` and the number of its bytes in `t`, the text after `b`.  There
is no answer for a literal that ends in the middle of an escape. -/
def measure (b : UInt8) (t : Text) : Option (TokenKind × Nat) :=
  if b = 0x2f ∧ t.head? = some 0x2f then
    some (if t.startsWith [0x2f, 0x2f] then .docComment else .comment, lineRest t)
  else if b = 0x2f ∧ t.head? = some 0x2a then
    some (.comment, 1 + blockRest (t.drop 1))
  else if b = 0x22 then (quotedRest 0x22 t).map (.string, ·)
  else if b = 0x27 then (quotedRest 0x27 t).map (.char, ·)
  else if b = 0x60 then some (.string, rawRest t)
  else if isWordStart b then
    let n := span isWordPart t
    some (.ofWord (b :: t.take n), n)
  else if Text.isDigit b then some (numeral b t)
  else match dots? b t with
    | some r => some r
    | none => some (symbolic b t)

/-- The literal of a token with the given bytes. -/
def literal (kind : TokenKind) (bytes : Text) : Text :=
  match kind with
  | .docComment => Text.trimSpace (bytes.drop 3)
  | _ => bytes

end Lexeme

namespace Token

/-- The end of a source of `total` bytes where reading stopped at `m`. -/
def atEnd (total : Nat) (m : Mark) : Token := ⟨.eof, [], m.position, total, total⟩

/-- The tokens of the rest `t` of a source of `total` bytes, `m` being the place where `t` starts. -/
def scanFrom (total : Nat) (m : Mark) (t : Text) : Except Fault (List Token) :=
  match _h : t.dropWhile Lexeme.isGap with
  | [] => .ok [atEnd total (m.advance (t.takeWhile Lexeme.isGap))]
  | b :: rest =>
    let m := m.advance (t.takeWhile Lexeme.isGap)
    if b = 0 then .ok [atEnd total m]
    else match Lexeme.measure b rest with
      | none => .error (.cutBeyondEnd (total + 1) total)
      | some (kind, n) =>
        let bytes := b :: rest.take n
        let after := m.advance bytes
        (scanFrom total after (rest.drop n)).map
          (⟨kind, Lexeme.literal kind bytes, m.position, m.offset, after.offset⟩ :: ·)
termination_by t.length
decreasing_by
  have h1 := (List.dropWhile_sublist (p := Lexeme.isGap) (l := t)).length_le
  rw [_h] at h1
  simp at h1 ⊢
  omega

/-- The tokens of a source; the last one is its end. -/
def scan (source : Text) : Except Fault (List Token) := scanFrom source.length Mark.start source

end Token

end MeaningForest

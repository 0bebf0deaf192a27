import MeaningForest.Text.Utf8

/-!
# The characters of a YAML document

A document is written in UTF-8, or in UTF-16 after a mark that says so.  Its bytes are read in pieces.  A piece with a
fault in it gives no characters, so a document can be cut off before its end; a reader that never comes to the cut does
not notice it.

* `Yaml.Sign.rest_shorter`: reading one character takes at least one byte.
-/

namespace MeaningForest.Yaml

/-- Whether a character may stand in a document. -/
def isAllowed (c : Nat) : Bool :=
  c == 0x09 || c == 0x0a || c == 0x0d || (0x20 ≤ c && c ≤ 0x7e) || c == 0x85 || (0xa0 ≤ c && c ≤ 0xd7ff) ||
    (0xe000 ≤ c && c ≤ 0xfffd) || (0x10000 ≤ c && c ≤ 0x10ffff)

/-- How characters are written as bytes. -/
inductive Encoding where
  | utf8
  /-- Units of two bytes; the low one can come first. -/
  | utf16 (lowFirst : Bool)
  deriving DecidableEq, Repr

/-- What the first bytes of a text are. -/
inductive Sign where
  /-- A character that is `more + 1` bytes long. -/
  | character (c more : Nat)
  /-- The start of a character that goes on after the end. -/
  | unfinished
  | bad
  deriving DecidableEq, Repr

namespace Sign

/-- A character of some length if it is allowed. -/
def ofScalar (c more : Nat) : Sign := if isAllowed c then character c more else bad

/-- The number of bytes after the first one of a character in UTF-8. -/
def tailSize? (a : UInt8) : Option Nat :=
  if a < 0x80 then some 0
  else if 0xc0 ≤ a ∧ a ≤ 0xdf then some 1
  else if 0xe0 ≤ a ∧ a ≤ 0xef then some 2
  else if 0xf0 ≤ a ∧ a ≤ 0xf7 then some 3
  else none

/-- The first sign in UTF-8. -/
def ofUtf8 (a : UInt8) (rest : Text) : Sign :=
  match tailSize? a with
  | none => bad
  | some more =>
    if 0 < more ∧ (rest.drop (more - 1)).isEmpty then unfinished
    else
      let d := Text.decode a rest
      if d.valid then ofScalar d.scalar more else bad

/-- A unit of two bytes. -/
def unit16 (lowFirst : Bool) (a b : UInt8) : Nat :=
  if lowFirst then b.toNat * 256 + a.toNat else a.toNat * 256 + b.toNat

/-- The first sign in UTF-16: one unit, or two that only count together. -/
def ofUtf16 (lowFirst : Bool) (a : UInt8) (rest : Text) : Sign :=
  match rest with
  | [] => unfinished
  | b :: rest =>
    let u := unit16 lowFirst a b
    if 0xdc00 ≤ u ∧ u ≤ 0xdfff then bad
    else if 0xd800 ≤ u ∧ u ≤ 0xdbff then
      match rest with
      | c :: d :: _ =>
        let v := unit16 lowFirst c d
        if 0xdc00 ≤ v ∧ v ≤ 0xdfff then ofScalar (0x10000 + (u - 0xd800) * 0x400 + (v - 0xdc00)) 3 else bad
      | _ => unfinished
    else ofScalar u 1

/-- The first sign of a text that is not empty. -/
def ofBytes (e : Encoding) (a : UInt8) (rest : Text) : Sign :=
  match e with
  | .utf8 => ofUtf8 a rest
  | .utf16 lowFirst => ofUtf16 lowFirst a rest

theorem rest_shorter (more : Nat) (a : UInt8) (rest : Text) : (rest.drop more).length < (a :: rest).length := by
  simp only [List.length_drop, List.length_cons]
  omega

end Sign

/-- The characters of one piece and the bytes of an unfinished one at its end; nothing if there is a fault. -/
def readPiece (e : Encoding) (t : Text) : Option (List Nat × Text) :=
  match t with
  | [] => some ([], [])
  | a :: rest =>
    match Sign.ofBytes e a rest with
    | .character c more => do
      let (cs, tail) ← readPiece e (rest.drop more)
      return (c :: cs, tail)
    | .unfinished => some ([], a :: rest)
    | .bad => none
termination_by t.length
decreasing_by exact Sign.rest_shorter more a rest

/-- The number of bytes that are read at once. -/
def pieceSize : Nat := 512

/-- What could be read of a document. -/
structure Characters where
  all : List Nat
  /-- Whether something that cannot be read follows. -/
  isCut : Bool
  /-- The number of characters of the first piece. -/
  first : Nat
  deriving DecidableEq, Repr

/-- The characters of a piece and of the bytes after it. -/
def readPieces (e : Encoding) : (fuel : Nat) → (piece left : Text) → Characters
  | 0, _, _ => ⟨[], true, 0⟩
  | fuel + 1, piece, left =>
    match readPiece e piece with
    | none => ⟨[], true, 0⟩
    | some (cs, tail) =>
      if left.isEmpty then ⟨cs, !tail.isEmpty, cs.length⟩
      else
        let size := pieceSize - tail.length
        let later := readPieces e fuel (tail ++ left.take size) (left.drop size)
        ⟨cs ++ later.all, later.isCut, cs.length⟩

/-- The encoding of a document and the length of the mark that tells it. -/
def encodingOf (t : Text) : Encoding × Nat :=
  match t with
  | 0xff :: 0xfe :: _ => (.utf16 true, 2)
  | 0xfe :: 0xff :: _ => (.utf16 false, 2)
  | 0xef :: 0xbb :: 0xbf :: _ => (.utf8, 3)
  | _ => (.utf8, 0)

/-- The characters of a document, without the mark of its encoding. -/
def Characters.ofText (t : Text) : Characters :=
  let (e, mark) := encodingOf t
  readPieces e (t.length + 1) ((t.take pieceSize).drop mark) (t.drop pieceSize)

end MeaningForest.Yaml

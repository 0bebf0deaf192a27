import MeaningForest.Text.Basic

/-!
# Tokens

The tokens of declaration files.  Host code inside a declaration is read as tokens too, so operators that the
declaration grammar has no use for are one kind, `operator`.
-/

namespace MeaningForest

/-- The reserved words of declaration files. -/
inductive Keyword where
  | package
  | import
  | arena
  | meaning
  | let
  | ref
  | fn
  | override
  | constructor
  | super
  deriving DecidableEq, Repr

namespace Keyword

/-- All reserved words. -/
def all : List Keyword := [package, «import», arena, meaning, «let», ref, fn, override, constructor, super]

/-- The spelling of a reserved word. -/
def spelling : Keyword → Text
  | package => "package"
  | .import => "import"
  | arena => "arena"
  | meaning => "meaning"
  | .let => "let"
  | ref => "ref"
  | fn => "fn"
  | override => "override"
  | constructor => "constructor"
  | super => "super"

/-- The reserved word with a given spelling. -/
def ofSpelling? (t : Text) : Option Keyword := all.find? (·.spelling == t)

end Keyword

/-- The kinds of tokens. -/
inductive TokenKind where
  | illegal
  | eof
  | comment
  | docComment
  | ident
  | int
  | float
  | string
  | char
  | operator
  | assign
  | comma
  | semicolon
  | colon
  | dot
  | ellipsis
  | lparen
  | rparen
  | lbracket
  | rbracket
  | lbrace
  | rbrace
  | keyword (word : Keyword)
  deriving DecidableEq, Repr

namespace TokenKind

/-- All kinds, in the order of their numbers. -/
def all : List TokenKind :=
  [illegal, eof, comment, docComment, ident, int, float, string, char, operator, assign, comma, semicolon, colon,
    dot, ellipsis, lparen, rparen, lbracket, rbracket, lbrace, rbrace] ++ Keyword.all.map keyword

/-- The name under which messages mention a kind. -/
def name : TokenKind → Text
  | illegal => "ILLEGAL"
  | eof => "EOF"
  | comment => "COMMENT"
  | docComment => "DOC_COMMENT"
  | ident => "IDENT"
  | int => "INT"
  | float => "FLOAT"
  | string => "STRING"
  | char => "CHAR"
  | operator => "OPERATOR"
  | assign => "="
  | comma => ","
  | semicolon => ";"
  | colon => ":"
  | dot => "."
  | ellipsis => "..."
  | lparen => "("
  | rparen => ")"
  | lbracket => "["
  | rbracket => "]"
  | lbrace => "\x7b"
  | rbrace => "\x7d"
  | keyword w => w.spelling

/-- The name of the kind with a given number. -/
def nameOfNumber (n : Int) : Text :=
  if n < 0 then "UNKNOWN" else (all[n.toNat]?.map name).getD "UNKNOWN"

/-- Whether a kind is a reserved word. -/
def isKeyword : TokenKind → Bool
  | keyword _ => true
  | _ => false

/-- The kind of a word: a reserved word or an identifier. -/
def ofWord (t : Text) : TokenKind :=
  match Keyword.ofSpelling? t with
  | some w => keyword w
  | none => ident

/-- Whether a kind is one of the two kinds of comments. -/
def isComment : TokenKind → Bool
  | comment | docComment => true
  | _ => false

/-- Whether a kind opens a bracket. -/
def isOpening : TokenKind → Bool
  | lparen | lbracket | lbrace => true
  | _ => false

/-- Whether a kind closes a bracket. -/
def isClosing : TokenKind → Bool
  | rparen | rbracket | rbrace => true
  | _ => false

end TokenKind

/-- A place in a source text; lines and columns count from one, columns in bytes. -/
structure Position where
  line : Nat
  column : Nat
  deriving DecidableEq, Repr, Inhabited

/-- The place of things that come from no source text. -/
def Position.none : Position := ⟨0, 0⟩

/-- A token with its place in the source. -/
structure Token where
  kind : TokenKind
  /-- The bytes of the token; for a documentation comment, its trimmed text after the slashes. -/
  literal : Text
  position : Position
  /-- The offset of the first byte. -/
  start : Nat
  /-- The offset after the last byte. -/
  stop : Nat
  deriving DecidableEq, Repr

end MeaningForest

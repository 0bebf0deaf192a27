import MeaningForest.Host.Token
import MeaningForest.Host.Tree

/-!
# Reading host code

The rules of the grammar are functions on the state `Source`; the first error ends reading.  Rules that call each
other do so through a `Rules` record, and `Rules.ofDepth` ties the knot up to a nesting depth.
-/

namespace MeaningForest.Host

/-- The state of reading. -/
structure Source where
  tokens : List Token
  /-- The bracket depth; it is negative in the head of a control statement, where a brace starts the body. -/
  level : Int := 0

/-- A rule of the grammar. -/
abbrev Parse := StateT Source Option

namespace Parse

/-- The next token, if there is one. -/
def peek : Parse (Option Token) := return (← get).tokens.head?

/-- Whether the next token is `t`. -/
def isNext (t : Token) : Parse Bool := return (← peek) == some t

/-- Whether the next token is one of `ts`. -/
def isNextOf (ts : List Token) : Parse Bool := do
  match ← peek with
  | some t => return ts.contains t
  | none => return false

/-- Goes past one token. -/
def advance : Parse Unit := modify fun s => { s with tokens := s.tokens.drop 1 }

/-- Goes past the next token, which must be `t`. -/
def expect (t : Token) : Parse Unit := do if ← isNext t then advance else failure

/-- Goes past the next token if it is `t`. -/
def accept (t : Token) : Parse Bool := do
  if ← isNext t then
    advance
    return true
  else return false

/-- An identifier. -/
def ident : Parse Text := do
  match ← peek with
  | some (.ident name) =>
    advance
    return name
  | _ => failure

/-- Whether the next token is an identifier. -/
def isIdent : Parse Bool := do
  match ← peek with
  | some (.ident _) => return true
  | _ => return false

/-- Whether the next token is a semicolon. -/
def isSemicolon : Parse Bool := isNextOf [.semicolon true, .semicolon false]

/-- The end of a statement: a semicolon, which may be missing before a closing bracket. -/
def endStatement : Parse Unit := do
  if ← isNextOf [.rparen, .rbrace] then return
  if ← isSemicolon then advance else failure

/-- Whether a list goes on: the next token must be a comma or the closing bracket. -/
def atComma (closing : Token) : Parse Bool := do
  if ← isNext .comma then return true
  if ← isNext closing then return false else failure

/-- Reads one bracket deeper. -/
def nested {α : Type} (p : Parse α) : Parse α := do
  modify fun s => { s with level := s.level + 1 }
  let a ← p
  modify fun s => { s with level := s.level - 1 }
  return a

/-- Reads the head of a control statement. -/
def inHead {α : Type} (p : Parse α) : Parse α := do
  let level := (← get).level
  modify fun s => { s with level := -1 }
  let a ← p
  modify fun s => { s with level := level }
  return a

/-- Repeats `item` while it gives something; every item takes at least one token. -/
def repeatSome {α : Type} (item : Parse (Option α)) : Parse (List α) := do
  go ((← get).tokens.length + 1)
where
  go : Nat → Parse (List α)
    | 0 => failure
    | n + 1 => do
      match ← item with
      | some a => return a :: (← go n)
      | none => return []

/-- Repeats `item` while `more` holds. -/
def repeatWhile {α : Type} (more : Parse Bool) (item : Parse α) : Parse (List α) :=
  repeatSome do if ← more then return some (← item) else return none

/-- Items with commas between them up to the closing bracket; a comma may stand before it. -/
def commaList {α : Type} (closing : Token) (item : Parse α) : Parse (List α) :=
  repeatWhile (return !(← isNext closing)) do
    let a ← item
    if ← atComma closing then advance
    return a

/-- One item or more with commas between them. -/
def commaSeparated {α : Type} (item : Parse α) : Parse (List α) := do
  let first ← item
  let more ← repeatWhile (isNext .comma) do
    advance
    item
  return first :: more

/-- The tokens left, to bound a loop. -/
def bound : Parse Nat := return (← get).tokens.length + 1

end Parse

/-- The rules that call each other. -/
structure Rules where
  /-- An expression of operators of at least the given precedence. -/
  expr : Nat → Parse Expr
  /-- An operand with the operators before and the selectors after it. -/
  unary : Parse Expr
  /-- A type, if one starts here. -/
  type? : Parse (Option Expr)
  /-- The elements of a composite literal of the given type, in braces. -/
  literalValue : Option Expr → Parse Expr
  /-- A statement. -/
  stmt : Parse Stmt

namespace Rules

/-- Rules that accept nothing. -/
def none : Rules := ⟨fun _ => failure, failure, failure, fun _ => failure, failure⟩

variable (r : Rules)

/-- Any expression. -/
def anyExpr : Parse Expr := r.expr 1

/-- Expressions with commas between them. -/
def exprs : Parse (List Expr) := Parse.commaSeparated r.anyExpr

/-- A type. -/
def type : Parse Expr := do
  match ← r.type? with
  | some t => return t
  | Option.none => failure

/-- Statements up to a brace or the next clause. -/
def stmts : Parse (List Stmt) :=
  Parse.repeatWhile
    (return !(← Parse.isNextOf [.rbrace, .keyword "case", .keyword "default"]) && (← Parse.peek).isSome) r.stmt

/-- Statements in braces. -/
def block : Parse (List Stmt) := do
  Parse.expect .lbrace
  let body ← r.stmts
  Parse.expect .rbrace
  return body

end Rules

end MeaningForest.Host

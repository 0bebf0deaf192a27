import MeaningForest.Host.Grammar.Types

/-!
# Expressions of host code
-/

namespace MeaningForest.Host

open Parse

/-- The precedence of a binary operator; a higher one binds tighter. -/
def precedence? : Token → Option (String × Nat)
  | .op m =>
    if m == "||" then some (m, 1)
    else if m == "&&" then some (m, 2)
    else if ["==", "!=", "<", "<=", ">", ">="].contains m then some (m, 3)
    else if ["+", "-", "|", "^"].contains m then some (m, 4)
    else if ["*", "/", "%", "<<", ">>", "&", "&^"].contains m then some (m, 5)
    else none
  | _ => none

/-- The operators that stand before an operand, the arrow and the star apart. -/
def isUnaryMark (m : String) : Bool := ["+", "-", "!", "^", "&", "~"].contains m

/-- An arrow before a channel type makes it a receiving one; the arrow of a sending type moves inwards. -/
def receiving? : Expr → Option Expr
  | .chan .both elem => some (.chan .receive elem)
  | .chan .send elem => (receiving? elem).map (.chan .receive)
  | _ => none

/-- Whether an expression is a channel type. -/
def Expr.isChan : Expr → Bool
  | chan .. => true
  | _ => false

/-- Whether a brace after the expression starts a composite literal.  After a name it does so only outside the heads
of control statements. -/
def startsLiteral (level : Int) : Expr → Bool
  | .ident _ | .selector .. | .index .. => 0 ≤ level
  | .array .. | .struct _ | .map .. => true
  | _ => false

namespace Rules

variable (r : Rules)

/-- A function type, or a function literal if a body follows. -/
def funcTypeOrLit : Parse Expr := do
  let (ps, rs) ← r.signature
  if ← isNext .lbrace then
    let body ← nested r.block
    return .funcLit ps (rs.getD []) body
  else return .func ps rs

/-- An operand: a name, a literal, a parenthesized expression, a function or a type. -/
def operand : Parse Expr := do
  match ← peek with
  | some (.ident name) =>
    advance
    return .ident name
  | some (.literal _ text) =>
    advance
    return .literal text
  | some .lparen =>
    advance
    let x ← nested r.anyExpr
    expect .rparen
    return .paren x
  | some (.keyword "func") =>
    advance
    r.funcTypeOrLit
  | _ => r.type

/-- What follows a period: a name or a type assertion. -/
def selection (x : Expr) : Parse Expr := do
  if ← accept .lparen then
    if ← accept (.keyword "type") then
      expect .rparen
      return .assertion x Option.none
    let t ← r.type
    expect .rparen
    return .assertion x (some t)
  else return .selector x (← ident)

/-- The optional bound of a slice. -/
def sliceBound : Parse (Option Expr) := do
  if ← isNextOf [.colon, .rbrack] then return Option.none else return some (← r.anyExpr)

/-- An index, a slice or type arguments, after the opening bracket. -/
def indexing (x : Expr) : Parse Expr := do
  if ← isNext .rbrack then failure
  let result ← nested do
    let low ← if ← isNext .colon then pure Option.none else some <$> r.anyExpr
    if ← accept .colon then
      let high ← r.sliceBound
      if ← accept .colon then
        let max ← r.sliceBound
        if high.isNone || max.isNone then failure
        return Expr.slice x low high max true
      return Expr.slice x low high Option.none false
    match low with
    | Option.none => failure
    | some first =>
      let more ← repeatWhile (isNext .comma) do
        advance
        if ← isNext .rbrack then return Option.none else return some (← r.type)
      return Expr.index x (first :: more.filterMap id)
  expect .rbrack
  return result

/-- The arguments of a call after the opening parenthesis. -/
def callArgs (fn : Expr) : Parse Expr := do
  let args ← nested <| commaList .rparen do
    let x ← r.anyExpr
    let spread ← accept .ellipsis
    -- Nothing but the closing parenthesis, and a comma before it, follows spread arguments.
    if spread && (← isNext .comma) && (← get).tokens[1]? != some .rparen then failure
    return (x, spread)
  expect .rparen
  return .call fn (args.map (·.1)) (args.any (·.2))

/-- Selectors, indices, calls and literal elements after an operand.  The number bounds the steps. -/
def suffixes : Nat → Expr → Parse Expr
  | 0, _ => failure
  | n + 1, x => do
    match ← peek with
    | some .period =>
      advance
      suffixes n (← r.selection x)
    | some .lbrack =>
      advance
      suffixes n (← r.indexing x)
    | some .lparen =>
      advance
      suffixes n (← r.callArgs x)
    | some .lbrace =>
      if startsLiteral (← get).level x.unparen then
        if x.isParen then failure
        suffixes n (← r.literalValue (some x))
      else return x
    | _ => return x

/-- An operand with all that follows it. -/
def primary : Parse Expr := do r.suffixes (← bound) (← r.operand)

/-- The rule for operands with the operators before them. -/
def unaryRule : Parse Expr := do
  match ← peek with
  | some (.op "<-") =>
    advance
    let x ← r.unary
    if x.isChan then
      match receiving? x with
      | some t => return t
      | Option.none => failure
    else return .unary "<-" x
  | some (.op "*") =>
    advance
    return .star (← r.unary)
  | some (.op m) =>
    if isUnaryMark m then
      advance
      return .unary m (← r.unary)
    else r.primary
  | _ => r.primary

/-- Operators of at least the precedence `least` after an operand.  The number bounds the steps. -/
def binaryFrom (least : Nat) : Nat → Expr → Parse Expr
  | 0, _ => failure
  | n + 1, x => do
    match (← peek).bind precedence? with
    | some (m, p) =>
      if p < least then return x
      advance
      binaryFrom least n (.binary m x (← r.expr (p + 1)))
    | Option.none => return x

/-- The rule for expressions. -/
def exprRule (least : Nat) : Parse Expr := do
  let x ← r.unary
  r.binaryFrom least (← bound) x

/-- A value in a composite literal: an expression, or elements in braces. -/
def literalElem : Parse Expr := do
  if ← isNext .lbrace then r.literalValue Option.none else r.anyExpr

/-- An element of a composite literal, possibly with a key. -/
def keyedElem : Parse Expr := do
  let x ← r.literalElem
  if ← accept .colon then return .keyValue x (← r.literalElem) else return x

/-- The rule for the elements of a composite literal. -/
def literalValueRule (type : Option Expr) : Parse Expr := do
  expect .lbrace
  let elems ← nested (commaList .rbrace r.keyedElem)
  expect .rbrace
  return .composite type elems

end Rules

end MeaningForest.Host

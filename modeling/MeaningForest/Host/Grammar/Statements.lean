import MeaningForest.Host.Grammar.Expressions
import MeaningForest.Host.Nesting

/-!
# Statements and declarations of host code
-/

namespace MeaningForest.Host

open Parse

/-- Where a simple statement stands. -/
inductive Context where
  | plain
  /-- A label may stand before the statement. -/
  | label
  /-- The statement may be the clause of a range loop. -/
  | loop
  deriving DecidableEq, Repr

/-- The assignment marks. -/
def assignMarks : List String :=
  [":=", "=", "+=", "-=", "*=", "/=", "%=", "&=", "|=", "^=", "<<=", ">>=", "&^="]

/-- Whether a statement is the guard of a type switch: `x.(type)` or `v := x.(type)`. -/
def Stmt.isTypeGuard : Stmt → Bool
  | expr (.assertion _ Option.none) => true
  | assign [_] true [.assertion _ Option.none] => true
  | _ => false

/-- Whether a statement is the clause of a range loop. -/
def Stmt.isRange : Stmt → Bool
  | range .. => true
  | _ => false

/-- The expression that a statement consists of. -/
def Stmt.expr? : Stmt → Option Expr
  | expr x => some x
  | _ => none

/-- Whether a type is certain to be one: it could be no expression. -/
def isTypeElem : Expr → Bool
  | .array .. | .struct _ | .func .. | .interface _ | .map .. | .chan .. => true
  | .binary _ x y => isTypeElem x || isTypeElem y
  | .unary op _ => op == "~"
  | .paren x => isTypeElem x
  | _ => false

/-- Splits an expression into the name of a type parameter and its constraint, where that is possible.  With `force`
a constraint that could be an expression counts too. -/
def splitTypeParam? (force : Bool) : Expr → Option (Text × Option Expr)
  | .ident n => some (n, none)
  | .binary "*" (.ident n) y => if force || isTypeElem y then some (n, some (.star y)) else none
  | .binary "|" x y =>
    match splitTypeParam? (force || isTypeElem y) x with
    | some (n, some t) => some (n, some (.binary "|" t y))
    | _ => none
  | .call (.ident n) [x] false => if force || isTypeElem x then some (n, some (.paren x)) else none
  | _ => none

namespace Rules

variable (r : Rules)

/-! ### Declarations -/

/-- One declaration after its word, or several in parentheses. -/
def grouped {α : Type} (spec : Parse α) : Parse (List α) := do
  if ← accept .lparen then
    let specs ← repeatWhile (return !(← isNext .rparen)) spec
    expect .rparen
    endStatement
    return specs
  else return [← spec]

/-- Names with an optional type and values. -/
def valueSpec (isConst : Bool) : Parse ValueSpec := do
  let names ← commaSeparated ident
  let type ← if ← isNext (.op "=") then pure Option.none
    else if isConst then
      (do if (← isSemicolon) || (← isNext .rparen) then pure Option.none else r.type?)
    else some <$> r.type
  let values ← if ← accept (.op "=") then r.exprs else pure []
  endStatement
  return .mk names type values

/-- A type after the bracket that follows its name: an array type or a generic type. -/
def bracketedType (name : Text) : Parse TypeSpec := do
  if !(← isIdent) then return .mk name [] (← r.arrayType)
  let first ← ident
  let x ← if ← isNext .lbrack then pure (Expr.ident first) else nested do
    let lhs ← r.suffixes (← bound) (.ident first)
    r.binaryFrom 1 (← bound) lhs
  let split := splitTypeParam? (← isNext .comma) x
  let closes ← isNext .rbrack
  match split with
  | some (n, some t) =>
    let fields ← r.typeParamsFrom ⟨some n, some (← r.unionFrom t)⟩
    let _ ← accept (.op "=")
    return .mk name fields (← r.type)
  | some (n, Option.none) =>
    if closes then
      expect .rbrack
      return .mk name [] (.array (some x) (← r.type))
    let fields ← r.typeParamsFrom (← r.entryFrom true n)
    let _ ← accept (.op "=")
    return .mk name fields (← r.type)
  | Option.none =>
    expect .rbrack
    return .mk name [] (.array (some x) (← r.type))

/-- A named type. -/
def typeSpec : Parse TypeSpec := do
  let name ← ident
  let spec ← if ← accept .lbrack then r.bracketedType name else do
    let _ ← accept (.op "=")
    pure (.mk name [] (← r.type))
  endStatement
  return spec

/-- Constants, variables or types. -/
def localDecl : Parse Decl := do
  if ← accept (.keyword "const") then return .values (← grouped (r.valueSpec true))
  if ← accept (.keyword "var") then return .values (← grouped (r.valueSpec false))
  expect (.keyword "type")
  return .types (← grouped r.typeSpec)

/-! ### Simple statements -/

/-- The rest of an assignment after its mark. -/
def assignment (c : Context) (lhs : List Expr) (m : String) : Parse Stmt := do
  if c = .loop ∧ (m = ":=" ∨ m = "=") then
    if ← accept (.keyword "range") then return .range lhs (m == ":=") (← r.anyExpr)
  return .assign lhs (m == ":=") (← r.exprs)

/-- An expression, send, assignment, increment or labeled statement. -/
def simpleStmt (c : Context) : Parse Stmt := do
  let lhs ← r.exprs
  match lhs, ← peek with
  | _, some (.op m) =>
    if assignMarks.contains m then
      advance
      return ← r.assignment c lhs m
    match lhs with
    | [x] =>
      if m == "<-" then
        advance
        return .send x (← r.anyExpr)
      if m == "++" || m == "--" then
        advance
        return .incDec x
      return .expr x
    | _ => failure
  | [x], some .colon =>
    match c, x with
    | .label, .ident name =>
      advance
      return .labeled name (← r.stmt)
    | _, _ => failure
  | [x], _ => return .expr x
  | _, _ => failure

/-! ### Control statements -/

/-- The head of an `if` statement. -/
def ifHead : Parse (Option Stmt × Expr) := do
  if ← isNext .lbrace then failure
  let (init, test) ← inHead do
    let init ← if ← isSemicolon then pure Option.none else some <$> r.simpleStmt .plain
    if ← isNext .lbrace then return (Option.none, init)
    if ← isSemicolon then advance else failure
    return (init, some (← r.simpleStmt .plain))
  match test.bind Stmt.expr? with
  | some x => return (init, x)
  | Option.none => failure

/-- An `if` statement after its word. -/
def ifStmt : Parse Stmt := do
  let (init, test) ← r.ifHead
  let body ← r.block
  if ← accept (.keyword "else") then
    if ← isNext (.keyword "if") then return .cond init test body (some (← r.stmt))
    let alternative ← r.block
    endStatement
    return .cond init test body (some (.block alternative))
  endStatement
  return .cond init test body Option.none

/-- A clause of a switch statement. -/
def caseClause : Parse Clause := do
  let cases ← if ← accept (.keyword "case") then r.exprs else do
    expect (.keyword "default")
    pure []
  expect .colon
  return .mk cases Option.none (← r.stmts)

/-- Clauses in braces. -/
def clauses (clause : Parse Clause) : Parse (List Clause) := do
  expect .lbrace
  let cs ← repeatWhile (isNextOf [.keyword "case", .keyword "default"]) clause
  expect .rbrace
  endStatement
  return cs

/-- A `switch` statement after its word. -/
def switchStmt : Parse Stmt := do
  let (init, tag) ← if ← isNext .lbrace then pure (Option.none, Option.none) else inHead do
    let first ← if ← isSemicolon then pure Option.none else some <$> r.simpleStmt .plain
    if ← isSemicolon then
      advance
      let second ← if ← isNext .lbrace then pure Option.none else some <$> r.simpleStmt .plain
      return (first, second)
    return (Option.none, first)
  match tag with
  | some s => if !s.isTypeGuard && s.expr?.isNone then failure
  | Option.none => pure ()
  return .choice init tag (← clauses r.caseClause)

/-- A clause of a select statement. -/
def commClause : Parse Clause := do
  let comm ← if ← accept (.keyword "case") then do
      let lhs ← r.exprs
      match lhs, ← peek with
      | [x], some (.op "<-") =>
        advance
        pure (some (Stmt.send x (← r.anyExpr)))
      | _, some (.op m) =>
        if (m == "=" || m == ":=") && lhs.length ≤ 2 then
          advance
          pure (some (Stmt.assign lhs (m == ":=") [← r.anyExpr]))
        else failure
      | [x], _ => pure (some (Stmt.expr x))
      | _, _ => failure
    else do
      expect (.keyword "default")
      pure Option.none
  expect .colon
  return .mk [] comm (← r.stmts)

/-- The clauses of a loop with semicolons, after the first one. -/
def loopClauses (init : Option Stmt) : Parse (Option Stmt × Option Stmt × Option Stmt) := do
  advance
  let test ← if ← isSemicolon then pure Option.none else some <$> r.simpleStmt .plain
  if ← isSemicolon then advance else failure
  let post ← if ← isNext .lbrace then pure Option.none else some <$> r.simpleStmt .plain
  return (init, test, post)

/-- The head of a loop. -/
def loopHead : Parse (Option Stmt × Option Stmt × Option Stmt) := do
  if ← isNext .lbrace then return (Option.none, Option.none, Option.none)
  inHead do
    if ← isSemicolon then r.loopClauses Option.none
    else if ← accept (.keyword "range") then
      return (Option.none, some (.range [] false (← r.anyExpr)), Option.none)
    else
      let first ← r.simpleStmt .loop
      if !first.isRange && (← isSemicolon) then r.loopClauses (some first)
      else return (Option.none, some first, Option.none)

/-- Whether a statement can be the test of a loop: an expression, or a range clause with at most two variables. -/
def isLoopTest : Stmt → Bool
  | .expr _ => true
  | .range lhs _ _ => lhs.length ≤ 2
  | _ => false

/-- A loop after its word. -/
def forStmt : Parse Stmt := do
  let (init, test, post) ← r.loopHead
  let body ← r.block
  endStatement
  match test with
  | some s => if isLoopTest s then return .loop init test post body else failure
  | Option.none => return .loop init test post body

/-- A call after `go` or `defer`, which must not be parenthesized. -/
def spawnStmt : Parse Stmt := do
  let x ← r.anyExpr
  match x with
  | .call .. =>
    endStatement
    return .spawn x
  | _ => failure

/-- A `return` statement after its word. -/
def returnStmt : Parse Stmt := do
  let xs ← if (← isSemicolon) || (← isNext .rbrace) then pure [] else r.exprs
  endStatement
  return .ret xs

/-- A jump after its word; `goto` needs a label and `fallthrough` has none. -/
def branchStmt (word : String) : Parse Stmt := do
  let label ← if word == "fallthrough" then pure Option.none
    else if word == "goto" then some <$> ident
    else if ← isIdent then some <$> ident
    else pure Option.none
  endStatement
  return .branch label

/-- Whether an operator can start a statement. -/
def startsStmt (m : String) : Bool := ["+", "-", "*", "&", "^", "<-", "!"].contains m

/-- A simple statement with the end that it needs; a labeled one has its own. -/
def plainStmt : Parse Stmt := do
  match ← r.simpleStmt .label with
  | .labeled l s => return .labeled l s
  | s =>
    endStatement
    return s

/-- The statement after a reserved word. -/
def wordStmt (word : String) : Parse Stmt := do
  match word with
  | "const" | "type" | "var" => return .decl (← r.localDecl)
  | "func" | "struct" | "map" | "chan" | "interface" => r.plainStmt
  | "go" | "defer" =>
    advance
    r.spawnStmt
  | "return" =>
    advance
    r.returnStmt
  | "break" | "continue" | "goto" | "fallthrough" =>
    advance
    branchStmt word
  | "if" =>
    advance
    r.ifStmt
  | "switch" =>
    advance
    r.switchStmt
  | "select" =>
    advance
    return .select (← clauses r.commClause)
  | "for" =>
    advance
    r.forStmt
  | _ => failure

/-- The rule for statements. -/
def stmtRule : Parse Stmt := do
  match ← peek with
  | some (.keyword w) => r.wordStmt w
  | some (.ident _) | some (.literal ..) | some .lparen | some .lbrack => r.plainStmt
  | some (.op m) => if startsStmt m then r.plainStmt else failure
  | some .lbrace =>
    let body ← r.block
    endStatement
    return .block body
  | some (.semicolon _) =>
    advance
    return .empty
  | some .rbrace => return .empty
  | _ => failure

/-- The rules up to a nesting depth. -/
def ofDepth : Nat → Rules
  | 0 => .none
  | n + 1 =>
    { expr := fun least => (ofDepth n).exprRule least
      unary := (ofDepth n).unaryRule
      type? := (ofDepth n).typeRule
      literalValue := fun type => (ofDepth n).literalValueRule type
      stmt := (ofDepth n).stmtRule }

/-! ### Files -/

/-- An import. -/
def importSpec : Parse (Text × Text) := do
  let name ← if ← accept .period then pure [0x2e] else if ← isIdent then ident else pure []
  match ← peek with
  | some (.literal .string path) =>
    advance
    endStatement
    return (name, path)
  | _ => failure

/-- A function or method after its word. -/
def funcDecl : Parse Decl := do
  let receiver ← if ← isNext .lparen then some <$> r.params true else pure Option.none
  let name ← ident
  let types ← if ← isNext .lbrack then r.typeParams else pure []
  let (ps, rs) ← r.signature
  if ← isNext .lbrace then
    let body ← r.block
    endStatement
    return .func receiver name types ps rs (some body)
  endStatement
  if ← isNext .lbrace then failure
  return .func receiver name types ps rs Option.none

/-- A declaration of a file. -/
def decl : Parse Decl := do
  if ← accept (.keyword "func") then r.funcDecl else r.localDecl

/-- A source file: package, imports, then other declarations. -/
def file : Parse File := do
  expect (.keyword "package")
  let package ← ident
  endStatement
  let imports ← repeatWhile (accept (.keyword "import")) (return .imports (← grouped importSpec))
  let decls ← repeatWhile (return (← peek).isSome) r.decl
  return ⟨package, imports ++ decls⟩

end Rules

/-- Runs a rule on a whole text. -/
def parseAll? {α : Type} (rule : Rules → Parse α) (t : Text) : Option α := do
  let ts ← tokens? t
  let (a, s) ← (rule (Rules.ofDepth (8 * (ts.length + 2)))).run { tokens := ts }
  if s.tokens.isEmpty then some a else none

/-- An expression or type, and the semicolon that the end of the text implies. -/
def parseExpr? (t : Text) : Option Expr :=
  parseAll? (fun r => do
    let x ← r.anyExpr
    let _ ← accept (.semicolon false)
    return x) t

/-- A source file, unless its scopes are nested too deep. -/
def parseFile? (t : Text) : Option File := (parseAll? Rules.file t).filter File.isShallow

end MeaningForest.Host

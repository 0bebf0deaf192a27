import MeaningForest.Host.Grammar.Basic

/-!
# Types and parameter lists of host code
-/

namespace MeaningForest.Host

open Parse

namespace Rules

variable (r : Rules)

/-- A name, qualified if a period follows. -/
def typeNameFrom (name : Text) : Parse Expr := do
  if ← accept .period then return .selector (.ident name) (← ident) else return .ident name

/-- Type arguments in brackets. -/
def typeArgs (x : Expr) : Parse Expr := do
  expect .lbrack
  let args ← nested (commaList .rbrack r.type)
  expect .rbrack
  if args.isEmpty then failure
  return .index x args

/-- A name, possibly qualified and with type arguments. -/
def namedTypeFrom (name : Text) : Parse Expr := do
  let x ← typeNameFrom name
  if ← isNext .lbrack then r.typeArgs x else return x

/-- An array or slice type after its opening bracket. -/
def arrayType : Parse Expr := do
  let length ← nested do
    if ← accept .ellipsis then return some (.ellipsis Option.none)
    else if ← isNext .rbrack then return Option.none
    else return some (← r.anyExpr)
  expect .rbrack
  return .array length (← r.type)

/-- What follows a name before a bracket: the array type of a field of that name, or type arguments of a type of that
name. -/
def arrayOrInstance (name : Text) : Parse (Option Text × Expr) := do
  expect .lbrack
  let (args, trailing) ← nested do
    if ← isNext .rbrack then return ([], false)
    let first ← r.anyExpr
    let more ← repeatWhile (return (← isNext .comma) && (← get).tokens[1]? != some .rbrack) do
      advance
      r.anyExpr
    return (first :: more, ← accept .comma)
  expect .rbrack
  match args with
  | [] => return (some name, .array Option.none (← r.type))
  | [n] =>
    match ← r.type? with
    | some elem => if trailing then failure else return (some name, .array (some n) elem)
    | Option.none => return (Option.none, .index (.ident name) [n])
  | _ => return (Option.none, .index (.ident name) args)

/-! ### Unions in constraints -/

/-- A term of a union: a type or `~` and a type. -/
def term : Parse Expr := do
  if ← accept (.op "~") then return .unary "~" (← r.type) else r.type

/-- The rest of a union after its first term. -/
def unionFrom (x : Expr) : Parse Expr := do
  let more ← repeatWhile (isNext (.op "|")) do
    advance
    r.term
  return more.foldl (.binary "|") x

/-! ### Parameters -/

/-- An entry of a parameter list before it is known whether single names are parameters or types. -/
structure Entry where
  name : Option Text
  type : Option Expr

/-- A variadic type. -/
def dotsType : Parse Expr := do
  expect .ellipsis
  return .ellipsis (some (← r.type))

/-- Whether the next token starts a type that can follow a parameter name; a bracket is looked at separately. -/
def atParamType : Parse Bool := do
  return (← isIdent) || (← isNextOf [.op "*", .op "<-", .keyword "func", .keyword "chan", .keyword "map",
    .keyword "struct", .keyword "interface", .lparen])

/-- The entry that starts with a name.  Unions are allowed in type parameter lists. -/
def entryFrom (unions : Bool) (name : Text) : Parse Entry := do
  let close (e : Entry) : Parse Entry := do
    match e.type with
    | some t => if unions && (← isNext (.op "|")) then return ⟨e.name, some (← r.unionFrom t)⟩ else return e
    | Option.none => return e
  if ← atParamType then close ⟨some name, some (← r.type)⟩
  else if ← isNext .lbrack then
    let (n, t) ← r.arrayOrInstance name
    close ⟨n, some t⟩
  else if ← isNext .ellipsis then return ⟨some name, some (← r.dotsType)⟩
  else if ← isNext .period then close ⟨Option.none, some (← r.namedTypeFrom name)⟩
  else if unions && (← isNext (.op "~")) then return ⟨some name, some (← r.unionFrom (← r.term))⟩
  else if unions && (← isNext (.op "|")) then return ⟨Option.none, some (← r.unionFrom (.ident name))⟩
  else return ⟨some name, Option.none⟩

/-- An entry of a parameter list. -/
def entry (unions : Bool) : Parse Entry := do
  if unions && (← isNext (.op "~")) then return ⟨Option.none, some (← r.unionFrom (← r.term))⟩
  if ← isIdent then r.entryFrom unions (← ident)
  else if ← isNext .ellipsis then return ⟨Option.none, some (← r.dotsType)⟩
  else if (← atParamType) || (← isNext .lbrack) then
    let t ← r.type
    if unions && (← isNext (.op "|")) then return ⟨Option.none, some (← r.unionFrom t)⟩
    return ⟨Option.none, some t⟩
  else failure

/-- The parameters of a list without names: a single name is a type. -/
def unnamedFields (es : List Entry) : List Field :=
  es.filterMap fun e => match e.name, e.type with
    | some n, _ => some (.mk [] (.ident n))
    | Option.none, some t => some (.mk [] t)
    | Option.none, Option.none => Option.none

/-- The parameters of a list with names: names share the next type to their right. -/
def namedFields : List Entry → Option (List Field)
  | [] => some []
  | ⟨some n, some t⟩ :: es => (namedFields es).map (.mk [n] t :: ·)
  | ⟨some n, Option.none⟩ :: es =>
    match namedFields es with
    | some (.mk ns t :: fs) => some (.mk (n :: ns) t :: fs)
    | _ => Option.none
  | ⟨Option.none, _⟩ :: _ => Option.none

/-- Whether only the last parameter is variadic, and it only if `variadic`. -/
def dotsAllowed (variadic : Bool) : List Field → Bool
  | [] => true
  | [f] => !f.type.isEllipsis || (variadic && f.names.length ≤ 1)
  | f :: fs => !f.type.isEllipsis && dotsAllowed variadic fs

/-- The parameters that a list of entries declares.  Type parameters need names. -/
def fieldsOf? (typeParams variadic : Bool) (es : List Entry) : Option (List Field) := do
  let isNamed := es.any fun e => e.name.isSome && e.type.isSome
  if typeParams && !isNamed && !es.isEmpty then Option.none
  let fields ← if isNamed then namedFields es else some (unnamedFields es)
  if dotsAllowed variadic fields then some fields else Option.none

/-- A parameter list up to its closing bracket. -/
def params (variadic : Bool) : Parse (List Field) := do
  expect .lparen
  let es ← commaList .rparen (r.entry false)
  expect .rparen
  match fieldsOf? false variadic es with
  | some fs => return fs
  | Option.none => failure

/-- The rest of a type parameter list, the first entry of which was read already. -/
def typeParamsFrom (first : Entry) : Parse (List Field) := do
  let es ← if ← atComma .rbrack then do
      advance
      commaList .rbrack (r.entry true)
    else pure []
  expect .rbrack
  match fieldsOf? true false (first :: es) with
  | some fs => return fs
  | Option.none => failure

/-- A type parameter list in brackets. -/
def typeParams : Parse (List Field) := do
  expect .lbrack
  r.typeParamsFrom (← r.entry true)

/-- Results: a list in parentheses or a single type, if there are any. -/
def results : Parse (Option (List Field)) := do
  if ← isNext .lparen then return some (← r.params false)
  match ← r.type? with
  | some t => return some [.mk [] t]
  | Option.none => return Option.none

/-- Parameters and results. -/
def signature : Parse (List Field × Option (List Field)) := do
  let ps ← r.params true
  return (ps, ← r.results)

/-! ### Struct and interface types -/

/-- A field of a struct: names with a type, or an embedded type, and an optional tag. -/
def structField : Parse Field := do
  let field ← if ← accept (.op "*") then
      pure (.mk [] (.star (← r.namedTypeFrom (← ident))))
    else do
      let name ← ident
      match ← peek with
      | some .period => pure (.mk [] (← r.namedTypeFrom name))
      | some (.literal .string _) | some (.semicolon _) | some .rbrace => pure (.mk [] (.ident name))
      | some .lbrack =>
        let (n, t) ← r.arrayOrInstance name
        pure (.mk n.toList t)
      | _ =>
        let more ← repeatWhile (isNext .comma) do
          advance
          ident
        pure (.mk (name :: more) (← r.type))
  match ← peek with
  | some (.literal .string _) => advance
  | _ => pure ()
  endStatement
  return field

/-- A struct type after its word. -/
def structType : Parse Expr := do
  expect .lbrace
  let fields ← repeatWhile (return (← isIdent) || (← isNext (.op "*"))) r.structField
  expect .rbrace
  return .struct fields

/-- An element of an interface that starts with a name: a method, or an embedded type. -/
def methodSpec : Parse Field := do
  let name ← ident
  if ← isNext .lparen then
    let (ps, rs) ← r.signature
    return .mk [name] (.func ps rs)
  if ← isNext .lbrack then
    advance
    let first ← nested r.anyExpr
    let more ← if ← atComma .rbrack then nested do
        advance
        commaList .rbrack r.type
      else pure []
    expect .rbrack
    return .mk [] (← r.unionFrom (.index (.ident name) (first :: more)))
  return .mk [] (← r.unionFrom (← r.namedTypeFrom name))

/-- An element of an interface, if one starts here. -/
def interfaceElem? : Parse (Option Field) := do
  if ← isIdent then
    let f ← r.methodSpec
    endStatement
    return some f
  if ← isNext (.op "~") then
    let t ← r.unionFrom (← r.term)
    endStatement
    return some (.mk [] t)
  match ← r.type? with
  | some t =>
    let t ← r.unionFrom t
    endStatement
    return some (.mk [] t)
  | Option.none => return Option.none

/-- An interface type after its word. -/
def interfaceType : Parse Expr := do
  expect .lbrace
  let elems ← repeatSome r.interfaceElem?
  expect .rbrace
  return .interface elems

/-- A function type after its word. -/
def funcType : Parse Expr := do
  let (ps, rs) ← r.signature
  return .func ps rs

/-- A map type after its word. -/
def mapType : Parse Expr := do
  expect .lbrack
  let key ← r.type
  expect .rbrack
  return .map key (← r.type)

/-- The rule for types. -/
def typeRule : Parse (Option Expr) := do
  match ← peek with
  | some (.ident name) =>
    advance
    return some (← r.namedTypeFrom name)
  | some .lbrack =>
    advance
    return some (← r.arrayType)
  | some (.keyword "struct") =>
    advance
    return some (← r.structType)
  | some (.op "*") =>
    advance
    return some (.star (← r.type))
  | some (.keyword "func") =>
    advance
    return some (← r.funcType)
  | some (.keyword "interface") =>
    advance
    return some (← r.interfaceType)
  | some (.keyword "map") =>
    advance
    return some (← r.mapType)
  | some (.keyword "chan") =>
    advance
    if ← accept (.op "<-") then return some (.chan .send (← r.type)) else return some (.chan .both (← r.type))
  | some (.op "<-") =>
    advance
    expect (.keyword "chan")
    return some (.chan .receive (← r.type))
  | some .lparen =>
    advance
    let t ← r.type
    expect .rparen
    return some (.paren t)
  | _ => return Option.none

end Rules

end MeaningForest.Host

import MeaningForest.Host.Grammar.Statements
import MeaningForest.Host.Printer
import MeaningForest.Text.Quoted

/-!
# Signatures

The parameter, result and type parameter lists of declarations are fragments of host code.  A fragment is read in a
frame that makes it a whole: a parameter list as the parameters of a function type, type parameters as those of a
function declaration.  What counts afterwards are the names, which forwarded calls mention, and the normal forms of
the types, by which overrides are compared.
-/

namespace MeaningForest

/-- The name of the receiver of generated methods. -/
def receiverName : Text := "self"

/-- The name under which generated code imports the runtime package. -/
def runtimeName : Text := "meaning"

/-- Why a fragment is no signature. -/
inductive SignatureFault where
  /-- The host code does not parse. -/
  | hostSyntax
  | notParameters
  | notResults
  | notTypeParameters
  /-- A parameter has the name of the receiver. -/
  | namedReceiver
  /-- A parameter has the name of the runtime package. -/
  | namedRuntime
  deriving DecidableEq, Repr

namespace SignatureFault

/-- The wording of a fault.  The wording of host parsers is their own and has only a place holder here. -/
def message : SignatureFault → Text
  | hostSyntax => "<go/parser>"
  | notParameters => "not a parameter list"
  | notResults => "not a result list"
  | notTypeParameters => "not a type parameter list"
  | namedReceiver => "parameter name " ++ receiverName.quote ++ " is reserved for the receiver"
  | namedRuntime => "parameter name " ++ runtimeName.quote ++ " is reserved for the runtime package"

end SignatureFault

/-- What a parameter list declares. -/
structure Signature where
  names : List Text := []
  /-- The normal form of each parameter's type. -/
  types : List Text := []
  /-- Whether the last parameter is variadic. -/
  variadic : Bool := false
  /-- Whether a parameter has no name, or the blank one. -/
  unnamed : Bool := false
  deriving DecidableEq, Repr

namespace Signature

/-- The arguments that forward all parameters. -/
def args (s : Signature) : Text :=
  if s.names.isEmpty then [] else Text.join ", " s.names ++ (if s.variadic then Text.ofString "..." else [])

/-- Why a parameter cannot have a name. -/
def reserved? (name : Text) : Option SignatureFault :=
  if name = receiverName then some .namedReceiver
  else if name = runtimeName then some .namedRuntime
  else none

/-- The signature of a parameter list. -/
def ofFields (fields : List Host.Field) : Except SignatureFault Signature :=
  let names := fields.flatMap (·.names)
  match names.findSome? reserved? with
  | some fault => .error fault
  | none => .ok
    { names
      types := fields.flatMap fun f => List.replicate (max f.names.length 1) f.type.render
      variadic := (fields.getLast?.map fun f => f.type.isEllipsis && !f.names.isEmpty).getD false
      unnamed := fields.any fun f => f.names.isEmpty || f.names.contains [0x5f] }

/-- Reads the parameters of a function. -/
def parse (params : Text) : Except SignatureFault Signature :=
  if params.isBlank then .ok {}
  else match Host.parseExpr? ("func(" ++ params ++ ")") with
    | none => .error .hostSyntax
    | some (.func fields _) => ofFields fields
    | some _ => .error .notParameters

end Signature

/-- Reads the results of a function: the normal forms of their types. -/
def parseResults (results : Text) : Except SignatureFault (List Text) :=
  if results.isBlank then .ok []
  else match Host.parseExpr? ("func()" ++ results) with
    | none => .error .hostSyntax
    | some (.func _ (some fields)) =>
      .ok (fields.flatMap fun f => List.replicate (max f.names.length 1) f.type.render)
    | some _ => .error .notResults

/-- Reads type parameters: their names. -/
def parseTypeParams (typeParams : Text) : Except SignatureFault (List Text) :=
  if typeParams.isBlank then .ok []
  else match Host.parseFile? ("package p\nfunc f[" ++ typeParams ++ "]() \x7b\x7d\n") with
    | none => .error .hostSyntax
    | some file =>
      match file.decls with
      | .func _ _ fields _ _ _ :: _ =>
        if fields.isEmpty then .error .notTypeParameters else .ok (fields.flatMap (·.names))
      | _ => .error .notTypeParameters

/-- Parameter and result types as one text, such as `(int, string) error`. -/
def signatureText (params results : List Text) : Text :=
  "(" ++ Text.join ", " params ++ ")" ++
    match results with
    | [] => []
    | [result] => " " ++ result
    | _ => " (" ++ Text.join ", " results ++ ")"

end MeaningForest

import MeaningForest.Host.Tree

/-!
# Writing types and expressions

Types are written in one normal form, so that two parameter lists can be compared as texts.  Parentheses are kept;
bodies of function literals and elements of composite literals are not written out.
-/

namespace MeaningForest.Host

/-- How a channel type begins. -/
def Direction.mark : Direction → Text
  | .both => "chan "
  | .send => "chan<- "
  | .receive => "<-chan "

/-- What stands for a missing type. -/
private def missing : Text := "(ast: <nil>)"

/-- The number of parameters of a list; a field without names counts once. -/
def fieldCount (fs : List Field) : Nat := fs.foldl (fun n f => n + max f.names.length 1) 0

/-- A result list with one result that has no name. -/
private def isPlainResult (fs : List Field) : Bool :=
  fieldCount fs == 1 && fs.all (·.names.isEmpty)

/-- Parameters in parentheses and results, which are given with their written form. -/
private def signature (params : Text) (results : List Field) (written : Text) : Text :=
  "(" ++ params ++ ")" ++
    (if fieldCount results = 0 then []
      else if isPlainResult results then 0x20 :: written
      else " (" ++ written ++ ")")

mutual

/-- The normal form of a type or expression. -/
def Expr.render : Expr → Text
  | .ident name => name
  | .literal text => text
  | .ellipsis elem => "..." ++ renderOption [] elem
  | .funcLit params results _ =>
    "(func" ++ signature (renderFields ", " false params) results (renderFields ", " false results) ++ " literal)"
  | .composite type elems =>
    renderOption missing type ++ "\x7b" ++ (if elems.isEmpty then [] else Text.ofString "…") ++ "\x7d"
  | .paren x => "(" ++ x.render ++ ")"
  | .selector x name => x.render ++ "." ++ name
  | .index x args => x.render ++ "[" ++ renderList args ++ "]"
  | .slice x low high max three =>
    x.render ++ "[" ++ renderOption [] low ++ ":" ++ renderOption [] high
      ++ (if three then 0x3a :: renderOption [] max else []) ++ "]"
  | .assertion x type => x.render ++ ".(" ++ renderOption missing type ++ ")"
  | .call fn args spread =>
    fn.render ++ "(" ++ renderList args ++ (if spread then Text.ofString "..." else []) ++ ")"
  | .star x => "*" ++ x.render
  | .unary op x => op ++ x.render
  | .binary op x y => x.render ++ " " ++ op ++ " " ++ y.render
  | .keyValue _ _ => "(ast: *ast.KeyValueExpr)"
  | .array length elem => "[" ++ renderOption [] length ++ "]" ++ elem.render
  | .struct fields => "struct\x7b" ++ renderFields "; " false fields ++ "\x7d"
  | .func params results =>
    match results with
    | none => "func" ++ signature (renderFields ", " false params) [] []
    | some results => "func" ++ signature (renderFields ", " false params) results (renderFields ", " false results)
  | .interface elems => "interface\x7b" ++ renderFields "; " true elems ++ "\x7d"
  | .map key value => "map[" ++ key.render ++ "]" ++ value.render
  | .chan dir elem => dir.mark ++ elem.render

/-- An optional part, or a default. -/
def renderOption (default : Text) : Option Expr → Text
  | none => default
  | some x => x.render

/-- Expressions with commas between them. -/
def renderList : List Expr → Text
  | [] => []
  | [x] => x.render
  | x :: xs => x.render ++ ", " ++ renderList xs

/-- A field; in an interface, a function type is the signature of a method. -/
def renderField (inInterface : Bool) : Field → Text
  | .mk names type =>
    match inInterface, type with
    | true, .func params none => Text.join ", " names ++ signature (renderFields ", " false params) [] []
    | true, .func params (some results) =>
      Text.join ", " names ++ signature (renderFields ", " false params) results (renderFields ", " false results)
    | _, type => Text.join ", " names ++ (if names.isEmpty then [] else [0x20]) ++ type.render

/-- Fields with a separator between them. -/
def renderFields (sep : Text) (inInterface : Bool) : List Field → Text
  | [] => []
  | [f] => renderField inInterface f
  | f :: fs => renderField inInterface f ++ sep ++ renderFields sep inInterface fs

end

end MeaningForest.Host

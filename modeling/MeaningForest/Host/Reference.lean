import MeaningForest.Host.Tree
import MeaningForest.Text.Utf8

/-!
# Packages that host code refers to

A selection `x.Name` of a visible name refers to a package `x` unless a declaration of `x` is in scope.  This module
collects the names of the packages that a file refers to.  What a statement declares is in scope in the statements
after it; what a file declares is in scope everywhere.  What stands on the left of a short declaration is not looked
up, so a selection there always refers to a package.
-/

namespace MeaningForest.Host

/-- The names among expressions on the left of a declaration. -/
def identifiers (xs : List Expr) : List Text :=
  xs.filterMap fun
    | .ident name => some name
    | _ => none

/-- The names of fields or parameters. -/
def fieldNames (fs : List Field) : List Text := fs.flatMap (·.names)

/-- The names that a list of value declarations declares. -/
def valueNames (specs : List ValueSpec) : List Text :=
  specs.flatMap fun
    | .mk names _ _ => names

/-- The names that a list of type declarations brings into scope.  What follows a type with parameters stays in the
scope of those, which ends with the list. -/
def typeNames : List TypeSpec → List Text
  | [] => []
  | .mk name typeParams _ :: specs => if typeParams.isEmpty then name :: typeNames specs else [name]

/-- The names of the type parameters that a receiver repeats in brackets. -/
def receiverTypeNames (fs : List Field) : List Text :=
  match fs with
  | .mk _ (.index _ args) :: _ => identifiers args
  | .mk _ (.star (.index _ args)) :: _ => identifiers args
  | _ => []

namespace Decl

/-- The names that a declaration brings into scope. -/
def names : Decl → List Text
  | imports _ => []
  | values specs => valueNames specs
  | types specs => typeNames specs
  | func receiver name .. => if receiver.isNone && name != Text.ofString "init" then [name] else []

end Decl

namespace Stmt

/-- The names that a statement brings into scope after it. -/
def names : Stmt → List Text
  | assign lhs true _ => identifiers lhs
  | range lhs true _ => identifiers lhs
  | labeled _ s => s.names
  | decl d => d.names
  | _ => []

end Stmt

/-- The names that an optional statement brings into scope. -/
def optionNames (s : Option Stmt) : List Text := (s.map Stmt.names).getD []

mutual

/-- The packages that an expression refers to; `scope` are the declared names. -/
def Expr.packages (scope : List Text) : Expr → List Text
  | .ident _ => []
  | .literal _ => []
  | .ellipsis elem => optionPackages scope elem
  | .funcLit params results body =>
    fieldPackages scope params ++ fieldPackages scope results ++
      bodyPackages (fieldNames params ++ fieldNames results ++ scope) body
  | .composite type elems => optionPackages scope type ++ listPackages scope elems
  | .paren x => x.packages scope
  | .selector x name =>
    (match x with
      | .ident p => if Text.startsWithCapital name && !scope.contains p then [p] else []
      | _ => []) ++ x.packages scope
  | .index x args => x.packages scope ++ listPackages scope args
  | .slice x low high max _ =>
    x.packages scope ++ optionPackages scope low ++ optionPackages scope high ++ optionPackages scope max
  | .assertion x type => x.packages scope ++ optionPackages scope type
  | .call fn args _ => fn.packages scope ++ listPackages scope args
  | .star x => x.packages scope
  | .unary _ x => x.packages scope
  | .binary _ x y => x.packages scope ++ y.packages scope
  | .keyValue key value => key.packages scope ++ value.packages scope
  | .array length elem => optionPackages scope length ++ elem.packages scope
  | .struct fields => fieldPackages scope fields
  | .func params none => fieldPackages scope params
  | .func params (some results) => fieldPackages scope params ++ fieldPackages scope results
  | .interface elems => fieldPackages scope elems
  | .map key value => key.packages scope ++ value.packages scope
  | .chan _ elem => elem.packages scope

def optionPackages (scope : List Text) : Option Expr → List Text
  | none => []
  | some x => x.packages scope

def listPackages (scope : List Text) : List Expr → List Text
  | [] => []
  | x :: xs => x.packages scope ++ listPackages scope xs

def fieldPackages (scope : List Text) : List Field → List Text
  | [] => []
  | .mk _ type :: fs => type.packages scope ++ fieldPackages scope fs

/-- The packages that the statements of a block refer to. -/
def bodyPackages (scope : List Text) : List Stmt → List Text
  | [] => []
  | s :: body => s.packages scope ++ bodyPackages (s.names ++ scope) body

/-- The packages that a statement refers to. -/
def Stmt.packages (scope : List Text) : Stmt → List Text
  | .empty => []
  | .expr x => x.packages scope
  | .send chan value => chan.packages scope ++ value.packages scope
  | .incDec x => x.packages scope
  | .assign lhs true rhs => listPackages [] lhs ++ listPackages scope rhs
  | .assign lhs false rhs => listPackages scope lhs ++ listPackages scope rhs
  | .range lhs _ x => listPackages scope lhs ++ x.packages scope
  | .spawn call => call.packages scope
  | .ret xs => listPackages scope xs
  | .branch _ => []
  | .labeled _ s => s.packages scope
  | .block body => bodyPackages scope body
  | .cond init test body alternative =>
    let inner := optionNames init ++ scope
    partPackages scope init ++ test.packages inner ++ bodyPackages inner body ++ partPackages inner alternative
  | .choice init tag clauses =>
    let inner := optionNames init ++ scope
    partPackages scope init ++ partPackages inner tag ++ clausePackages (optionNames tag ++ inner) clauses
  | .select clauses => clausePackages scope clauses
  | .loop init test post body =>
    let inner := optionNames init ++ scope
    partPackages scope init ++ partPackages inner test ++ partPackages inner post ++
      bodyPackages (optionNames test ++ inner) body
  | .decl d => d.packages scope

/-- The packages that a part of a statement refers to. -/
def partPackages (scope : List Text) : Option Stmt → List Text
  | none => []
  | some s => s.packages scope

def clausePackages (scope : List Text) : List Clause → List Text
  | [] => []
  | .mk cases comm body :: clauses =>
    listPackages scope cases ++ partPackages scope comm ++ bodyPackages (optionNames comm ++ scope) body ++
      clausePackages scope clauses

/-- The packages that a declaration refers to. -/
def Decl.packages (scope : List Text) : Decl → List Text
  | .imports _ => []
  | .values specs => valuePackages scope specs
  | .types specs => typePackages scope specs
  | .func receiver _ typeParams params results body =>
    let inner := fieldNames typeParams ++ ((receiver.map receiverTypeNames).getD []) ++ scope
    recordPackages inner receiver ++ fieldPackages inner typeParams ++ fieldPackages inner params ++
      recordPackages inner results ++
      functionPackages (((receiver.map fieldNames).getD []) ++ fieldNames params ++
        ((results.map fieldNames).getD []) ++ inner) body

def recordPackages (scope : List Text) : Option (List Field) → List Text
  | none => []
  | some fs => fieldPackages scope fs

def functionPackages (scope : List Text) : Option (List Stmt) → List Text
  | none => []
  | some body => bodyPackages scope body

def valuePackages (scope : List Text) : List ValueSpec → List Text
  | [] => []
  | .mk names type values :: specs =>
    optionPackages scope type ++ listPackages scope values ++ valuePackages (names ++ scope) specs

def typePackages (scope : List Text) : List TypeSpec → List Text
  | [] => []
  | .mk name typeParams type :: specs =>
    let inner := fieldNames typeParams ++ name :: scope
    fieldPackages inner typeParams ++ type.packages inner ++ typePackages inner specs

end

/-- The packages that a file refers to. -/
def File.packages (f : File) : List Text :=
  let scope := f.decls.flatMap Decl.names
  f.decls.flatMap (Decl.packages scope)

end MeaningForest.Host

import MeaningForest.Host.Tree

/-!
# Nested scopes of host code

Functions, blocks, statements with parts of their own, and the types with fields each open a scope.  Scopes may only be
nested so deep: a file that goes beyond the limit is refused like one that does not parse.
-/

namespace MeaningForest.Host

mutual

/-- How many scopes an expression opens inside each other. -/
def Expr.depth : Expr → Nat
  | .ident _ => 0
  | .literal _ => 0
  | .ellipsis elem => optionDepth elem
  | .funcLit params results body => 1 + max (max (fieldDepth params) (fieldDepth results)) (bodyDepth body)
  | .composite type elems => max (optionDepth type) (listDepth elems)
  | .paren x => x.depth
  | .selector x _ => x.depth
  | .index x args => max x.depth (listDepth args)
  | .slice x low high last _ => max (max x.depth (optionDepth low)) (max (optionDepth high) (optionDepth last))
  | .assertion x type => max x.depth (optionDepth type)
  | .call fn args _ => max fn.depth (listDepth args)
  | .star x => x.depth
  | .unary _ x => x.depth
  | .binary _ x y => max x.depth y.depth
  | .keyValue key value => max key.depth value.depth
  | .array length elem => max (optionDepth length) elem.depth
  | .struct fields => 1 + fieldDepth fields
  | .func params none => 1 + fieldDepth params
  | .func params (some results) => 1 + max (fieldDepth params) (fieldDepth results)
  | .interface elems => 1 + fieldDepth elems
  | .map key value => max key.depth value.depth
  | .chan _ elem => elem.depth

def optionDepth : Option Expr → Nat
  | none => 0
  | some x => x.depth

def listDepth : List Expr → Nat
  | [] => 0
  | x :: xs => max x.depth (listDepth xs)

def fieldDepth : List Field → Nat
  | [] => 0
  | .mk _ type :: fs => max type.depth (fieldDepth fs)

/-- How many scopes the statements of a block open inside each other. -/
def bodyDepth : List Stmt → Nat
  | [] => 0
  | s :: body => max s.depth (bodyDepth body)

/-- How many scopes a statement opens inside each other. -/
def Stmt.depth : Stmt → Nat
  | .empty => 0
  | .expr x => x.depth
  | .send chan value => max chan.depth value.depth
  | .incDec x => x.depth
  | .assign lhs _ rhs => max (listDepth lhs) (listDepth rhs)
  | .range lhs _ x => max (listDepth lhs) x.depth
  | .spawn call => call.depth
  | .ret xs => listDepth xs
  | .branch _ => 0
  | .labeled _ s => s.depth
  | .block body => 1 + bodyDepth body
  | .cond init test body alternative =>
    1 + max (max (partDepth init) test.depth) (max (1 + bodyDepth body) (partDepth alternative))
  | .choice init tag clauses =>
    let inner := max (partDepth tag) (clauseDepth clauses)
    1 + max (partDepth init) (if init.isSome && tag.isSome then 1 + inner else inner)
  | .select clauses => clauseDepth clauses
  | .loop init test post body =>
    1 + max (max (partDepth init) (partDepth test)) (max (partDepth post) (1 + bodyDepth body))
  | .decl d => d.depth

def partDepth : Option Stmt → Nat
  | none => 0
  | some s => s.depth

def clauseDepth : List Clause → Nat
  | [] => 0
  | .mk cases comm body :: clauses =>
    max (max (listDepth cases) (1 + max (partDepth comm) (bodyDepth body))) (clauseDepth clauses)

/-- How many scopes a declaration opens inside each other. -/
def Decl.depth : Decl → Nat
  | .imports _ => 0
  | .values specs => valueDepth specs
  | .types specs => typeDepth specs
  | .func receiver _ typeParams params results body =>
    1 + max (max (recordDepth receiver) (fieldDepth typeParams))
      (max (fieldDepth params) (max (recordDepth results) (functionDepth body)))

def recordDepth : Option (List Field) → Nat
  | none => 0
  | some fs => fieldDepth fs

def functionDepth : Option (List Stmt) → Nat
  | none => 0
  | some body => bodyDepth body

def valueDepth : List ValueSpec → Nat
  | [] => 0
  | .mk _ type values :: specs => max (max (optionDepth type) (listDepth values)) (valueDepth specs)

/-- A scope of type parameters lasts to the end of a list of types. -/
def typeDepth : List TypeSpec → Nat
  | [] => 0
  | .mk _ typeParams type :: specs =>
    let inner := max type.depth (typeDepth specs)
    if typeParams.isEmpty then inner else 1 + max (fieldDepth typeParams) inner

end

/-- The greatest number of scopes inside each other; the file itself is one of them. -/
def scopeLimit : Nat := 1000

/-- Whether the scopes of a file are not nested too deep. -/
def File.isShallow (f : File) : Bool := f.decls.all fun d => 1 + d.depth ≤ scopeLimit

end MeaningForest.Host

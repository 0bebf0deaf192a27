import MeaningForest.Text.Basic

/-!
# Syntax trees of host code

Types and expressions share one tree, since a parameter list can only be told from a call once it is read.  Statements
keep what is needed to find the names that a piece of code uses.
-/

namespace MeaningForest.Host

/-- The directions of a channel. -/
inductive Direction where
  | both
  | send
  | receive
  deriving DecidableEq, Repr

mutual

/-- An expression or a type. -/
inductive Expr where
  | ident (name : Text)
  | literal (text : Text)
  /-- Three dots, before the element type of a variadic parameter or alone as the length of an array. -/
  | ellipsis (elem : Option Expr)
  | funcLit (params results : List Field) (body : List Stmt)
  | composite (type : Option Expr) (elems : List Expr)
  | paren (x : Expr)
  | selector (x : Expr) (name : Text)
  | index (x : Expr) (args : List Expr)
  | slice (x : Expr) (low high max : Option Expr) (three : Bool)
  /-- A type assertion; without a type, the guard of a type switch. -/
  | assertion (x : Expr) (type : Option Expr)
  | call (fn : Expr) (args : List Expr) (spread : Bool)
  | star (x : Expr)
  | unary (op : String) (x : Expr)
  | binary (op : String) (x y : Expr)
  | keyValue (key value : Expr)
  | array (length : Option Expr) (elem : Expr)
  | struct (fields : List Field)
  /-- A function type; it tells an absent result list from an empty one. -/
  | func (params : List Field) (results : Option (List Field))
  | interface (elems : List Field)
  | map (key value : Expr)
  | chan (dir : Direction) (elem : Expr)

/-- Names that share a type, in a parameter list, a struct or an interface; an embedded type has no name. -/
inductive Field where
  | mk (names : List Text) (type : Expr)

/-- A statement. -/
inductive Stmt where
  | empty
  | expr (x : Expr)
  | send (chan value : Expr)
  | incDec (x : Expr)
  /-- An assignment; `defines` marks a short variable declaration. -/
  | assign (lhs : List Expr) (defines : Bool) (rhs : List Expr)
  /-- The clause of a range loop. -/
  | range (lhs : List Expr) (defines : Bool) (x : Expr)
  /-- `go` and `defer`. -/
  | spawn (call : Expr)
  | ret (xs : List Expr)
  | branch (label : Option Text)
  | labeled (label : Text) (s : Stmt)
  | block (body : List Stmt)
  | cond (init : Option Stmt) (test : Expr) (body : List Stmt) (alternative : Option Stmt)
  | choice (init tag : Option Stmt) (clauses : List Clause)
  | select (clauses : List Clause)
  | loop (init test post : Option Stmt) (body : List Stmt)
  | decl (d : Decl)

/-- A clause of a switch or select statement: what it compares with or communicates, and its statements. -/
inductive Clause where
  | mk (cases : List Expr) (comm : Option Stmt) (body : List Stmt)

/-- A declaration. -/
inductive Decl where
  | imports (specs : List (Text × Text))
  /-- Constants and variables. -/
  | values (specs : List ValueSpec)
  | types (specs : List TypeSpec)
  /-- A function or method; a body may be missing. -/
  | func (receiver : Option (List Field)) (name : Text) (typeParams params : List Field)
      (results : Option (List Field)) (body : Option (List Stmt))

/-- Names with a type and initial values. -/
inductive ValueSpec where
  | mk (names : List Text) (type : Option Expr) (values : List Expr)

/-- A named type. -/
inductive TypeSpec where
  | mk (name : Text) (typeParams : List Field) (type : Expr)

end

/-- A source file. -/
structure File where
  package : Text
  decls : List Decl

namespace Field

def names : Field → List Text
  | mk names _ => names

def type : Field → Expr
  | mk _ type => type

end Field

namespace Expr

/-- An expression without the parentheses around it. -/
def unparen : Expr → Expr
  | paren x => x.unparen
  | x => x

/-- Whether an expression is parenthesized. -/
def isParen : Expr → Bool
  | paren _ => true
  | _ => false

/-- Whether an expression is variadic. -/
def isEllipsis : Expr → Bool
  | ellipsis _ => true
  | _ => false

end Expr

end MeaningForest.Host

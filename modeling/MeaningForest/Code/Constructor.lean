import MeaningForest.Analysis.Profile
import MeaningForest.Code.Cell

/-!
# Construction of objects

For each meaning three functions are generated: one with the body of its constructor, one that runs the constructors
from the root to this meaning on a handle, and one that allocates all layers of a new object and then runs them.
-/

namespace MeaningForest.Code

/-- A call of a constructor function with a handle and more arguments. -/
structure HandleCall where
  function : Text
  typeArgs : Text
  /-- The variable of a handle, and the handles embedded in it that lead to the one that is passed. -/
  var : Text
  selectors : List Text
  arguments : Text
  deriving DecidableEq, Repr

/-- A first item and others after a comma, if there are any. -/
def andMore (first rest : Text) : Text := if rest.isBlank then first else first ++ ", " ++ rest

/-- The statement of a call. -/
def HandleCall.text (c : HandleCall) : Text :=
  c.function ++ c.typeArgs ++ "(" ++ andMore (c.var ++ selections c.selectors) c.arguments ++ ")"

/-- The type parameters of a constructor function. -/
def typeParamList (c : Constructor) : Text :=
  if Text.isBlank c.decl.typeParams then [] else "[" ++ c.decl.typeParams ++ "]"

/-- The type arguments of a call. -/
def typeArgList (c : Constructor) : Text :=
  if c.typeParams.isEmpty then [] else "[" ++ Text.join ", " c.typeParams ++ "]"

/-- The calls that construct an object: the constructors of its ancestors, then its own. -/
def constructCalls (p : Profile) (var : Text) : List HandleCall :=
  (match p.parent? with
    | none => []
    | some parent => [⟨initName parent, [], var, [parent], p.ctor.decl.superArgs.getD []⟩]) ++
  [⟨ctorName p.name, typeArgList p.ctor, var, [], p.ctor.params.args⟩]

/-- The three functions of a meaning; `root` is the first meaning of its ancestry and `below` are the others. -/
structure ConstructorCode where
  profile : Profile
  arenaType : Text
  root : Text
  below : List Text
  literal : LayerLiteral
  deriving DecidableEq, Repr

namespace ConstructorCode

variable (c : ConstructorCode)

/-- The head of a function whose first parameter is given. -/
def head (name first : Text) : Text :=
  "func " ++ name ++ typeParamList c.profile.ctor ++ "(" ++ andMore first c.profile.ctor.decl.params ++ ")"

/-- The parameter for the handle. -/
def handleParam : Text := receiverName ++ " " ++ c.profile.name

/-- The function with the constructor's own body. -/
def ownLines : List Line :=
  line (c.head (ctorName c.profile.name) c.handleParam ++ " \x7b") :: bodyLines c.profile.ctor.decl.body ++
    [line "\x7d", blank]

/-- The function that runs all constructors on a handle. -/
def initLines : List Line :=
  braced (c.head (initName c.profile.name) c.handleParam)
    ((constructCalls c.profile receiverName).map fun call => line call.text)

/-- The names of the local variables for the arena and the new object. -/
def arenaVariable : Text := freeName "arena" c.profile.ctor.params.names
def objectVariable : Text := freeName "cto" c.profile.ctor.params.names

/-- The opening braces of the handles around the root handle, and the closing ones. -/
def wrapping : Text := c.below.reverse.flatMap (· ++ [0x7b])
def unwrapping : Text := List.replicate c.below.length 0x7d

/-- The allocation of a new object: the handles around the root handle, and in it the chain of layers. -/
def allocationLines : List Line :=
  block
    (c.objectVariable ++ " := " ++ c.wrapping ++ c.root ++ "\x7broot: " ++
      runtimeName ++ ".Allocate(" ++ c.arenaVariable ++ ", &" ++ layerName c.root ++ "\x7b")
    c.literal.lines
    ("\x7d)\x7d" ++ c.unwrapping)

/-- The function that makes a new object. -/
def newLines : List Line :=
  line ("// " ++ newName c.profile.name ++ " 在 arena 中创建一个 " ++ c.profile.name) ::
  braced (c.head (newName c.profile.name) (c.arenaVariable ++ " *" ++ c.arenaType) ++ " " ++ c.profile.name)
    (c.allocationLines ++ (constructCalls c.profile c.objectVariable).map (fun call => line call.text) ++
      [line ("return " ++ c.objectVariable)])

/-- The three functions. -/
def lines : List Line := c.ownLines ++ c.initLines ++ c.newLines

end ConstructorCode

end MeaningForest.Code

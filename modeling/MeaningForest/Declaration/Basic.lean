import MeaningForest.Token.Basic

/-!
# Declarations

A declaration file names a package, imports, an arena and a list of meanings.  A meaning has fields, constructors and
methods.  Types, parameter lists and bodies are fragments of host code and kept as text.
-/

namespace MeaningForest

/-- An import of a host package. -/
structure ImportDecl where
  position : Position
  /-- The local name, empty for the package's own. -/
  localName : Text
  path : Text
  deriving DecidableEq, Repr

/-- A field of a meaning. -/
structure FieldDecl where
  position : Position
  name : Text
  /-- Whether the field's cell can be shared. -/
  isRef : Bool
  type : Text
  /-- The initial value, empty for the zero value of the type. -/
  default : Text
  deriving DecidableEq, Repr

/-- A constructor of a meaning. -/
structure ConstructorDecl where
  position : Position
  typeParams : Text
  params : Text
  /-- The arguments for the constructor of the parent, if it is called. -/
  superArgs : Option Text
  body : Text
  deriving DecidableEq, Repr

/-- A method of a meaning, or an override of an inherited one. -/
structure MethodDecl where
  position : Position
  name : Text
  isOverride : Bool
  doc : Text
  typeParams : Text
  params : Text
  results : Text
  body : Text
  deriving DecidableEq, Repr

/-- A meaning. -/
structure MeaningDecl where
  position : Position
  name : Text
  /-- The name of the parent, empty for a root. -/
  parent : Text
  parentPosition : Position
  doc : Text
  fields : List FieldDecl
  /-- At most one constructor is valid; others are reported when meanings are analysed. -/
  constructors : List ConstructorDecl
  methods : List MethodDecl
  deriving DecidableEq, Repr

/-- A declaration file. -/
structure DeclFile where
  name : Text
  /-- The package, empty if the file leaves it to the settings. -/
  package : Text := []
  /-- The name of the arena type, empty if the file leaves it to the settings. -/
  arena : Text := []
  imports : List ImportDecl := []
  meanings : List MeaningDecl := []
  deriving DecidableEq, Repr

end MeaningForest

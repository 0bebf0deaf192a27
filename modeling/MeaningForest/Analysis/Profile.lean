import MeaningForest.Analysis.Forest
import MeaningForest.Symbol.Table

/-!
# Profiles of meanings

The profile of a meaning is what its declaration amounts to once its ancestors are known: the members that its handle
type gets, its fields, its constructor, the methods it defines and those it overrides.  Declarations are taken one by
one; each is either added to the profile or reported.
-/

namespace MeaningForest

/-- Where a member of a handle type comes from. -/
inductive MemberKind where
  /-- A part of every handle type: the root, the embedded parent, a downcast. -/
  | generated
  | method
  /-- The getter or the setter of a field. -/
  | accessor
  deriving DecidableEq, Repr

/-- A name that is taken on the handle type of a meaning. -/
structure Member where
  owner : Text
  name : Text
  kind : MemberKind
  deriving DecidableEq, Repr

/-- Whether a member keeps `m` from having another one of this name.  Accessors of a meaning may shadow those of its
ancestors. -/
def Member.blocks (e : Member) (m name : Text) (kind : MemberKind) : Bool :=
  e.name == name && (e.owner == m || e.kind != .accessor || kind != .accessor)

/-- A constructor with its signature; a signature that cannot be read counts as empty. -/
structure Constructor where
  decl : ConstructorDecl
  params : Signature := {}
  typeParams : List Text := []
  deriving DecidableEq, Repr

/-- A method with its signature and the meaning that declares it. -/
structure Method where
  owner : Text
  decl : MethodDecl
  params : Signature
  results : List Text
  deriving DecidableEq, Repr

namespace Method

def name (f : Method) : Text := f.decl.name

/-- Whether two methods have the same types. -/
def sameTypes (f g : Method) : Bool := f.params.types == g.params.types && f.results == g.results

end Method

/-- An override of an inherited method. -/
structure Override where
  decl : MethodDecl
  /-- The method that is overridden. -/
  base : Method
  /-- The meanings below the owner of the base, down to the one that overrides. -/
  path : List Text
  deriving DecidableEq, Repr

/-- What is known of a meaning. -/
structure Profile where
  decl : MeaningDecl
  /-- The meanings from the root to this one. -/
  ascending : List Text
  /-- The direct descendants, as declared. -/
  submeanings : List Text
  ctor : Constructor
  members : List Member := []
  fields : List FieldSlot := []
  methods : List Method := []
  overrides : List Override := []
  findings : List Finding := []
  deriving DecidableEq, Repr

namespace Profile

variable [Language]

def name (p : Profile) : Text := p.decl.name

/-- The parent of the meaning. -/
def parent? (p : Profile) : Option Text := p.ascending.dropLast.getLast?

/-- Adds a finding, in the words of the language. -/
def report (p : Profile) (position : Position) (problem : AnalysisProblem) : Profile :=
  { p with findings := p.findings ++ [.found position problem] }

/-! ### Members -/

/-- The first of the names that is taken on the handle type, and the meaning that has it. -/
def conflict? (above : List Profile) (p : Profile) (kind : MemberKind) (names : List Text) : Option (Text × Text) :=
  names.findSome? fun name =>
    ((above.flatMap (·.members) ++ p.members).find? (·.blocks p.name name kind)).map fun e => (name, e.owner)

/-- Takes names on the handle type if all are free, and continues; reports a conflict otherwise. -/
def occupy (above : List Profile) (p : Profile) (position : Position) (kind : MemberKind) (names : List Text)
    (next : Profile → Profile) : Profile :=
  match p.conflict? above kind names with
  | some (name, owner) => p.report position (.memberConflict p.name name owner)
  | none => next { p with members := p.members ++ names.map fun name => ⟨p.name, name, kind⟩ }

/-- The names that every handle type of its kind has. -/
def reservedNames (p : Profile) : List Text :=
  (match p.parent? with
    | none => ["root", "variant", "RuntimeInfo", "runtimeInfo"].map Text.ofString
    | some parent => [parent]) ++ p.submeanings.map downcastName

/-- Reserves a name. -/
def reserve (above : List Profile) (p : Profile) (name : Text) : Profile :=
  p.occupy above p.decl.position .generated [name] id

/-! ### Fields -/

/-- The initial value of a field. -/
def initOf (d : FieldDecl) : Text := if d.default.isEmpty then "*new(" ++ d.type ++ ")" else d.default

/-- Adds a field. -/
def addField (above : List Profile) (p : Profile) (d : FieldDecl) : Profile :=
  if p.fields.any (·.name == d.name) then p.report d.position (.redefining d.name)
  else p.occupy above d.position .accessor [d.name, setterName d.name] fun p =>
    { p with fields := p.fields ++ [⟨d.name, d.isRef, d.type, initOf d⟩] }

/-! ### Constructors -/

/-- The constructor of a meaning that declares none. -/
def emptyConstructor (d : MeaningDecl) : ConstructorDecl :=
  { position := d.position, typeParams := [], params := [], superArgs := none, body := [] }

/-- The constructor that counts: the first. -/
def constructorDecl (d : MeaningDecl) : ConstructorDecl := d.constructors.head?.getD (emptyConstructor d)

/-- Sets the parameters of the constructor. -/
def setParams (p : Profile) : Profile :=
  let d := p.ctor.decl
  match Signature.parse d.params with
  | .error fault => p.report d.position (.invalidParams p.name ("constructor(" ++ d.params ++ ")") fault)
  | .ok s =>
    if s.unnamed then p.report d.position (.unnamedParams p.name "constructor")
    else { p with ctor := { p.ctor with params := s } }

/-- Sets the type parameters of the constructor. -/
def setTypeParams (p : Profile) : Profile :=
  let d := p.ctor.decl
  match parseTypeParams d.typeParams with
  | .error fault => p.report d.position (.invalidParams p.name ("constructor[" ++ d.typeParams ++ "]") fault)
  | .ok names => { p with ctor := { p.ctor with typeParams := names } }

/-- Checks that the constructor of the parent is called exactly where it has to be. -/
def checkSuper (above : List Profile) (p : Profile) : Profile :=
  match p.ctor.decl.superArgs, above.getLast? with
  | some _, none => p.report p.ctor.decl.position (.superWithoutParent p.name)
  | none, some parent =>
    if parent.ctor.params.names.isEmpty then p
    else p.report p.ctor.decl.position (.missingSuper p.name parent.name)
  | _, _ => p

/-- Takes the constructor; further ones are reported first. -/
def setConstructor (above : List Profile) (p : Profile) : Profile :=
  let p := p.decl.constructors.tail.foldl (fun p d => p.report d.position (.duplicateConstructor p.name)) p
  p.setParams.setTypeParams.checkSuper above

/-! ### Methods -/

/-- Reads the signature of a method of `m`. -/
def readMethod (m : Text) (d : MethodDecl) : Except AnalysisProblem Method := do
  if !d.typeParams.isEmpty then throw (.methodTypeParams m d.name)
  let params ← (Signature.parse d.params).mapError (.invalidParams m (d.name ++ "(" ++ d.params ++ ")"))
  if params.unnamed then throw (.unnamedParams m d.name)
  let results ← (parseResults d.results).mapError (.invalidParams m (d.name ++ " results " ++ d.results))
  return ⟨m, d, params, results⟩

/-- The nearest method of a name among ancestors. -/
def inheritedMethod? (above : List Profile) (name : Text) : Option Method :=
  above.reverse.findSome? fun a => a.methods.find? (·.name == name)

/-- Adds a method that the meaning defines. -/
def defineMethod (above : List Profile) (p : Profile) (f : Method) : Profile :=
  let at_ := f.decl.position
  if p.methods.any (·.name == f.name) then p.report at_ (.duplicateMethod p.name f.name)
  else match inheritedMethod? above f.name with
    | some base => p.report at_ (.mustOverride p.name f.name base.owner)
    | none => p.occupy above at_ .method [f.name] fun p => { p with methods := p.methods ++ [f] }

/-- Adds an override of an inherited method, which must have the same types. -/
def overrideMethod (above : List Profile) (p : Profile) (f : Method) : Profile :=
  let at_ := f.decl.position
  match inheritedMethod? above f.name with
  | none => p.report at_ (.overrideMissing p.name f.name)
  | some base =>
    if p.overrides.any (·.decl.name == f.name) then p.report at_ (.duplicateMethod p.name f.name)
    else if f.sameTypes base then
      let path := (after? base.owner p.ascending).getD p.ascending
      { p with overrides := p.overrides ++ [⟨f.decl, base, path⟩] }
    else
      p.report at_ (.overrideSignature p.name f.name (signatureText base.params.types base.results) base.owner)

/-- Adds a method or an override. -/
def addMethod (above : List Profile) (p : Profile) (d : MethodDecl) : Profile :=
  match readMethod p.name d with
  | .error problem => p.report d.position problem
  | .ok f => if d.isOverride then p.overrideMethod above f else p.defineMethod above f

/-! ### The whole profile -/

/-- The profile of a meaning, given the profiles of its ancestors from the root to its parent. -/
def ofDecl (above : List Profile) (d : MeaningDecl) (ascending submeanings : List Text) : Profile :=
  let p : Profile := { decl := d, ascending, submeanings, ctor := { decl := constructorDecl d } }
  let p := p.reservedNames.foldl (reserve above) p
  let p := d.fields.foldl (addField above) p
  let p := p.setConstructor above
  d.methods.foldl (addMethod above) p

end Profile

end MeaningForest

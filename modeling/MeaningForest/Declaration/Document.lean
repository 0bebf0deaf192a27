import MeaningForest.Declaration.Reader
import MeaningForest.Yaml.Merge

/-!
# Declarations in structured documents

A declaration file can also be written as a YAML document: a mapping with the keys `package`, `arena`, `imports` and
`meanings`.  Types, parameters and bodies are texts, and blanks around them do not count.  An entry without a required
key is reported and left out.
-/

namespace MeaningForest

open Yaml

variable [Language]

namespace DocumentReader

/-- The value of a key of a mapping, as it is written. -/
def valueNode? (n : Node) (key : String) : Option Node :=
  match n with
  | .mapping _ entries _ => (entries.find? fun e => e.1.text == Text.ofString key).map Prod.snd
  | _ => none

/-- Where an entry is: at the value of its name if it has one. -/
def namedPlace (n : Node) : Position := ((valueNode? n "name").getD n).place

/-- Replaces a text if the node has one. -/
def textOr (old : Text) (n : Node) : Decode Text := return (← Decode.text? "string" n).getD old

/-- Replaces a truth value if the node has one. -/
def boolOr (old : Bool) (n : Node) : Decode Bool := return (← Decode.bool? n).getD old

/-! ### Entries -/

/-- An import as a mapping. -/
def importType : Decode.RecordType ImportDecl where
  name := "schema.importDoc"
  keys := ["alias", "path"]
  set key v d := do
    if key = Text.ofString "alias" then return { d with localName := ← textOr d.localName v }
    else return { d with path := ← textOr d.path v }
  placed n d := { d with position := n.place }

/-- An import: a path, or a mapping. -/
def import? : Node → Decode (Option ImportDecl) :=
  Decode.followed fun n => do
    match n with
    | .scalar tag text place =>
      if tag = nullTag then importType.entry? ⟨⟨0, 0⟩, [], []⟩ n else return some ⟨place, [], text⟩
    | n => importType.entry? ⟨⟨0, 0⟩, [], []⟩ n

/-- A field. -/
def fieldType : Decode.RecordType FieldDecl where
  name := "schema.fieldDoc"
  keys := ["name", "type", "default", "ref"]
  set key v d := do
    if key = Text.ofString "name" then return { d with name := ← textOr d.name v }
    else if key = Text.ofString "type" then return { d with type := ← textOr d.type v }
    else if key = Text.ofString "default" then return { d with default := ← textOr d.default v }
    else return { d with isRef := ← boolOr d.isRef v }
  placed n d := { d with position := namedPlace n }

/-- A constructor. -/
def constructorType : Decode.RecordType ConstructorDecl where
  name := "*schema.ctorDoc"
  keys := ["type_params", "params", "super", "body"]
  set key v d := do
    if key = Text.ofString "type_params" then return { d with typeParams := ← textOr d.typeParams v }
    else if key = Text.ofString "params" then return { d with params := ← textOr d.params v }
    else if key = Text.ofString "super" then return { d with superArgs := ← Decode.text? "*string" v }
    else return { d with body := ← textOr d.body v }
  placed n d := { d with position := n.place }

/-- Replaces a constructor, or what is given of it; null leaves none. -/
def constructorOr (old : Option ConstructorDecl) : Node → Decode (Option ConstructorDecl) :=
  Decode.followed fun n => do
    match n with
    | .mapping tag _ _ =>
      if tag = nullTag then
        Decode.misfitCollection n constructorType.name
        return old
      constructorType.entry? (old.getD ⟨⟨0, 0⟩, [], [], none, []⟩) n
    | n => constructorType.entry? ⟨⟨0, 0⟩, [], [], none, []⟩ n

/-- A method. -/
def methodType : Decode.RecordType MethodDecl where
  name := "schema.methodDoc"
  keys := ["name", "doc", "override", "type_params", "params", "results", "body"]
  set key v d := do
    if key = Text.ofString "name" then return { d with name := ← textOr d.name v }
    else if key = Text.ofString "doc" then return { d with doc := ← textOr d.doc v }
    else if key = Text.ofString "override" then return { d with isOverride := ← boolOr d.isOverride v }
    else if key = Text.ofString "type_params" then return { d with typeParams := ← textOr d.typeParams v }
    else if key = Text.ofString "params" then return { d with params := ← textOr d.params v }
    else if key = Text.ofString "results" then return { d with results := ← textOr d.results v }
    else return { d with body := ← textOr d.body v }
  placed n d := { d with position := namedPlace n }

/-- The entries of a list. -/
def entries {σ : Type} (r : Decode.RecordType σ) (start : σ) : Node → Decode (List σ) :=
  Decode.list ("[]" ++ r.name) (Decode.followed (r.entry? start))

/-- A meaning. -/
def meaningType : Decode.RecordType MeaningDecl where
  name := "schema.meaningDoc"
  keys := ["name", "extends", "doc", "fields", "constructor", "methods"]
  set key v d := do
    if key = Text.ofString "name" then return { d with name := ← textOr d.name v }
    else if key = Text.ofString "extends" then return { d with parent := ← textOr d.parent v }
    else if key = Text.ofString "doc" then return { d with doc := ← textOr d.doc v }
    else if key = Text.ofString "fields" then
      return { d with fields := ← entries fieldType ⟨⟨0, 0⟩, [], false, [], []⟩ v }
    else if key = Text.ofString "constructor" then
      return { d with constructors := (← constructorOr d.constructors.head? v).toList }
    else return { d with methods := ← entries methodType ⟨⟨0, 0⟩, [], false, [], [], [], [], []⟩ v }
  placed n d := { d with
    position := n.place
    parentPosition := ((valueNode? n "extends").map Node.place).getD d.parentPosition }

/-- A whole document. -/
def fileType : Decode.RecordType DeclFile where
  name := "schema.document"
  keys := ["package", "arena", "imports", "meanings"]
  set key v d := do
    if key = Text.ofString "package" then return { d with package := ← textOr d.package v }
    else if key = Text.ofString "arena" then return { d with arena := ← textOr d.arena v }
    else if key = Text.ofString "imports" then
      return { d with imports := ← Decode.list ("[]" ++ importType.name) import? v }
    else return { d with meanings := ← entries meaningType ⟨⟨0, 0⟩, [], [], ⟨0, 0⟩, [], [], [], []⟩ v }

/-- Decodes a document. -/
def decode (name : Text) : Decode DeclFile := do
  Decode.visit
  fileType.record { name } (← read).root

/-! ### Required keys -/

/-- Problems found while entries are checked. -/
abbrev Check := StateM (List (Located ReadProblem))

/-- Reports a missing key; the entry is left out. -/
def missing {α : Type} (place : Position) (owner key : Text) : Check (Option α) := do
  modify (· ++ [.found place (.missingKey owner key)])
  return none

/-- The place of an entry in a list. -/
def indexed (owner : Text) (i : Nat) : Text := owner ++ "[" ++ Text.ofNat i ++ "]"

/-- Checks the entries of a list, each with its index, and keeps those that have what they need. -/
def checkAll {α : Type} (check : Nat → α → Check (Option α)) (l : List α) : Check (List α) := do
  let kept ← l.zipIdx.mapM fun (a, i) => check i a
  return kept.filterMap id

def checkImport (_ : Nat) (d : ImportDecl) : Check (Option ImportDecl) :=
  if d.path.isEmpty then missing d.position "import" "path" else return some d

def checkField (owner : Text) (i : Nat) (d : FieldDecl) : Check (Option FieldDecl) :=
  let place := indexed (owner ++ ".fields") i
  if d.name.isEmpty then missing d.position place "name"
  else if d.type.isBlank then missing d.position place "type"
  else return some { d with type := d.type.trimSpace, default := d.default.trimSpace }

def trimConstructor (d : ConstructorDecl) : ConstructorDecl :=
  { d with
    typeParams := d.typeParams.trimSpace, params := d.params.trimSpace
    superArgs := d.superArgs.map Text.trimSpace, body := d.body.trimSpace }

def trimMethod (d : MethodDecl) : MethodDecl :=
  { d with
    doc := d.doc.trimSpace, typeParams := d.typeParams.trimSpace, params := d.params.trimSpace
    results := d.results.trimSpace, body := d.body.trimSpace }

def checkMethod (owner : Text) (i : Nat) (d : MethodDecl) : Check (Option MethodDecl) :=
  if d.name.isEmpty then missing d.position (indexed (owner ++ ".methods") i) "name"
  else return some (trimMethod d)

def checkMeaning (i : Nat) (d : MeaningDecl) : Check (Option MeaningDecl) := do
  if d.name.isEmpty then missing d.position (indexed "meanings" i) "name"
  else
    let fields ← checkAll (checkField d.name) d.fields
    let methods ← checkAll (checkMethod d.name) d.methods
    return some { d with doc := d.doc.trimSpace, fields, constructors := d.constructors.map trimConstructor, methods }

def checkFile (f : DeclFile) : Check DeclFile := do
  let imports ← checkAll checkImport f.imports
  let meanings ← checkAll checkMeaning f.meanings
  return { f with imports, meanings }

/-- A document that cannot be decoded gives no declarations. -/
def undecodable (name reason : Text) : ReadResult := ⟨{ name }, [.found ⟨0, 0⟩ (.undecodable reason)]⟩

end DocumentReader

open DocumentReader in
/-- Reads the declaration document `name`.  The wording of the document parser's own errors is not given. -/
def DeclFile.readDocument (name source : Text) : Except Fault ReadResult :=
  match Yaml.parse? source with
  | none => .ok (undecodable name "<yaml>")
  | some none => .ok ⟨{ name }, []⟩
  | some (some doc) =>
    match decode name doc {} with
    | .error (.collectionKey type) => .error (.uncomparableKey type)
    | .error f => .ok (undecodable name ("yaml: " ++ f.message))
    | .ok (f, s) =>
      if s.notes.isEmpty then
        let (f, problems) := checkFile f []
        .ok ⟨f, problems⟩
      else .ok (undecodable name ("yaml: unmarshal errors:\n  " ++ Text.join "\n  " s.notes))

end MeaningForest

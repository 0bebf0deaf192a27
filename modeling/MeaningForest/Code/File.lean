import MeaningForest.Code.Constructor
import MeaningForest.Code.Member

/-!
# Generated files

The generated file of an analysis: a head, the imports, the arena type, and the declarations of each meaning.
-/

namespace MeaningForest.Code

/-- All that is generated for one meaning. -/
structure MeaningCode where
  info : InfoCode
  layer : LayerCode
  handle : HandleCode
  downcasts : List DowncastCode
  accessors : List AccessorCode
  constructors : ConstructorCode
  methods : List MethodCode
  overrides : List MethodCode
  deriving DecidableEq, Repr

def MeaningCode.lines (c : MeaningCode) : List Line :=
  c.info.lines ++ c.layer.lines ++ c.handle.lines ++ c.downcasts.flatMap (·.lines) ++
    c.accessors.flatMap (·.lines) ++ c.constructors.lines ++ c.methods.flatMap (·.lines) ++
    c.overrides.flatMap (·.lines)

/-- A generated file. -/
structure FileCode where
  /-- The name of the declaration file. -/
  source : Text
  package : Text
  arena : Text
  /-- The import path of the runtime package. -/
  runtime : Text
  imports : List ImportDecl
  meanings : List MeaningCode
  deriving DecidableEq, Repr

namespace FileCode

/-- An import with its local name, if it has one. -/
def importText (localName path : Text) : Text :=
  if localName.isEmpty then path.quote else localName ++ " " ++ path.quote

def importLines (c : FileCode) : List Line :=
  block "import (" (line (importText runtimeName c.runtime) ::
    c.imports.map fun i => line (importText i.localName i.path)) ")" ++ [blank]

/-- The lines before the imports. -/
def headLines (c : FileCode) : List Line :=
  [line ("// Code generated by meantree from " ++ c.source ++ ". DO NOT EDIT."), blank,
    line ("package " ++ c.package), blank]

/-- The lines after the imports. -/
def restLines (c : FileCode) : List Line :=
  [line ("// " ++ c.arena ++ " 持有本文件所有 meaning 的存储"),
    line ("type " ++ c.arena ++ " = " ++ runtimeName ++ ".Arena"), blank] ++
  c.meanings.flatMap (·.lines)

def lines (c : FileCode) : List Line := c.headLines ++ c.importLines ++ c.restLines

def text (c : FileCode) : Text := render c.lines

end FileCode

end MeaningForest.Code

namespace MeaningForest.Analysis

open Code

/-- The names of the handles embedded in each other from a meaning up to one of its ancestors. -/
def handlePath (ascending : List Text) (source target : Text) : Except Fault (List Text) :=
  match pathUp? ascending source target with
  | some path => .ok path
  | none => .error (.notAncestor ("meaning " ++ target) ("meaning " ++ source))

/-- The way from a handle of a meaning to a cell of its layer. -/
def cellPath (p : Profile) (root cell : Text) : Except Fault CellPath :=
  return ⟨rootLayer (← handlePath p.ascending p.name root), layerTags p.ascending, cell⟩

/-- The code of a method that a meaning defines. -/
def methodCode (a : Analysis) (p : Profile) (f : Method) : Except Fault MethodCode :=
  return ⟨p.name, f.name, f.decl, .ofTree f.params.names receiverName [] (← a.overrideTree p.name f.name)⟩

/-- The code of an override. -/
def overrideCode (p : Profile) (o : Override) : MethodCode :=
  ⟨p.name, overrideName p.name o.decl.name, o.decl, .done⟩

/-- The code of a meaning. -/
def meaningCode (a : Analysis) (p : Profile) : Except Fault MeaningCode := do
  let chain ← p.ascending.mapM a.profile
  match chain with
  | [] => .error (.indexOutOfRange 0 0)
  | root :: below =>
    let variant ← cellPath p root.name "variant"
    let methods ← p.methods.mapM (a.methodCode p)
    return {
      info := ⟨p.name, a.package, p.parent?⟩
      layer := ⟨p.name, p.fields, p.submeanings⟩
      handle := ⟨p.name, p.decl.doc, p.parent?⟩
      downcasts := p.submeanings.map fun sub => ⟨p.name, sub, variant⟩
      accessors := p.fields.map fun f => ⟨p.name, f, { variant with cell := f.name }⟩
      constructors :=
        { profile := p, arenaType := a.arena, root := root.name, below := below.map (·.name)
          literal := .ofChain root.name root.fields (below.map fun q => (q.name, q.fields)) }
      methods
      overrides := p.overrides.map (overrideCode p) }

/-- The code of a file. -/
def fileCode (settings : Settings) (a : Analysis) : Except Fault FileCode := do
  let meanings ← (← a.declared).mapM a.meaningCode
  return { source := a.file.name, package := a.package, arena := a.arena, runtime := settings.runtime,
           imports := a.file.imports, meanings }

end MeaningForest.Analysis

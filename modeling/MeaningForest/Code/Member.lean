import MeaningForest.Code.Cell
import MeaningForest.Code.Dispatch

/-!
# Declarations of a meaning

For each meaning are generated: its run-time information, its layer with the tags that lead to the layers of its
submeanings, its handle type with downcasts, the accessors of its fields, its methods and its overrides.
-/

namespace MeaningForest.Code

/-- The pointer type of run-time information. -/
def infoType : Text := "*" ++ runtimeName ++ ".Info"

/-- The head of a method on the handle type of a meaning. -/
def methodHead (m name params results : Text) : Text :=
  "func (" ++ receiverName ++ " " ++ m ++ ") " ++ name ++ "(" ++ params ++ ")" ++
    (if results.isBlank then ([] : Text) else " " ++ results.trimSpace)

/-! ### Run-time information -/

/-- The variable with the information on a meaning. -/
structure InfoCode where
  name : Text
  package : Text
  parent : Option Text
  deriving DecidableEq, Repr

namespace InfoCode

def fullName (i : InfoCode) : Text := i.package ++ "." ++ i.name

def parentLines (i : InfoCode) : List Line :=
  match i.parent with
  | none => []
  | some p => [line ("Parent: " ++ infoName p ++ ",")]

def lines (i : InfoCode) : List Line :=
  block ("var " ++ infoName i.name ++ " = &" ++ runtimeName ++ ".Info\x7b")
    ([line ("Name: " ++ i.name.quote ++ ","), line ("Package: " ++ i.package.quote ++ ","),
      line ("FullName: " ++ i.fullName.quote ++ ",")] ++ i.parentLines) "\x7d" ++ [blank]

end InfoCode

/-! ### Layers -/

/-- The layer of a meaning: its cells, and a tag for each submeaning. -/
structure LayerCode where
  meaning : Text
  cells : List FieldSlot
  submeanings : List Text
  deriving DecidableEq, Repr

namespace LayerCode

variable (l : LayerCode)

/-- The method that makes a type a tag of this layer. -/
def markerLines (type : Text) : List Line :=
  [line ("func (" ++ type ++ ") " ++ markerName l.meaning ++ "() \x7b\x7d"), blank]

/-- The layer itself. -/
def structLines : List Line :=
  braced ("type " ++ layerName l.meaning ++ " struct")
    (l.cells.map (fun f => line (f.name ++ " " ++ cellType f)) ++ [line ("variant " ++ variantName l.meaning)])

/-- The interface of its tags, and the tag of a last layer. -/
def variantLines : List Line :=
  braced ("type " ++ variantName l.meaning ++ " interface") [line (markerName l.meaning ++ "()")] ++
    [line ("type " ++ terminalName l.meaning ++ " struct\x7b\x7d"), blank] ++ l.markerLines (terminalName l.meaning)

/-- The tag that leads to the layer of a submeaning. -/
def tagLines (sub : Text) : List Line :=
  braced ("type " ++ toLayerName l.meaning sub ++ " struct") [line ("next *" ++ layerName sub)] ++
    l.markerLines (toLayerName l.meaning sub)

/-- One case of the search for the last layer. -/
def caseLines (sub : Text) : List Line :=
  line ("case " ++ toLayerName l.meaning sub ++ ":") :: indented [line "return v.next.runtimeInfo()"]

/-- The search for the last layer. -/
def searchLines : List Line :=
  if l.submeanings.isEmpty then []
  else line "switch v := l.variant.(type) \x7b" :: l.submeanings.flatMap l.caseLines ++ [line "\x7d"]

/-- The information on the meaning of the last layer. -/
def infoLines : List Line :=
  braced ("func (l *" ++ layerName l.meaning ++ ") runtimeInfo() " ++ infoType)
    (l.searchLines ++ [line ("return " ++ infoName l.meaning)])

def lines : List Line :=
  l.structLines ++ l.variantLines ++ l.submeanings.flatMap l.tagLines ++ l.infoLines

end LayerCode

/-! ### Handles -/

/-- The handle type of a meaning: a root handle refers to the root layer, any other embeds that of the parent. -/
structure HandleCode where
  meaning : Text
  doc : Text
  parent : Option Text
  deriving DecidableEq, Repr

namespace HandleCode

variable (h : HandleCode)

/-- What the handle type is made of. -/
def content : Text :=
  match h.parent with
  | none => "root " ++ runtimeName ++ ".Handle[" ++ layerName h.meaning ++ "]"
  | some parent => parent

/-- The method of root handles that gives the information on the object's meaning. -/
def infoLines : List Line :=
  line "// RuntimeInfo 返回句柄所指对象实际 meaning 的元信息" ::
    braced (methodHead h.meaning "RuntimeInfo" [] infoType)
      [line ("return " ++ receiverName ++ ".root.Get().runtimeInfo()")]

def lines : List Line :=
  docLines h.doc ++ braced ("type " ++ h.meaning ++ " struct") [line h.content] ++
    if h.parent.isNone then h.infoLines else []

end HandleCode

/-- The downcast from a meaning to one of its submeanings, by the tag of the meaning's layer. -/
structure DowncastCode where
  meaning : Text
  sub : Text
  variant : CellPath
  deriving DecidableEq, Repr

def DowncastCode.lines (d : DowncastCode) : List Line :=
  line ("// " ++ downcastName d.sub ++ " 在对象实际是 " ++ d.sub ++ " 或其后代时返回对应句柄") ::
  braced ("func (" ++ receiverName ++ " " ++ d.meaning ++ ") " ++ downcastName d.sub ++ "() (" ++ d.sub ++ ", bool)")
    (block ("if _, ok := " ++ d.variant.text ++ ".(" ++ toLayerName d.meaning d.sub ++ "); ok \x7b")
        [line ("return " ++ d.sub ++ "\x7b" ++ receiverName ++ "\x7d, true")] "\x7d" ++
      [line ("return " ++ d.sub ++ "\x7b\x7d, false")])

/-! ### Accessors -/

/-- The getter and the setter of a field. -/
structure AccessorCode where
  meaning : Text
  field : FieldSlot
  cell : CellPath
  deriving DecidableEq, Repr

namespace AccessorCode

variable (a : AccessorCode)

/-- The methods of a cell that read and write it. -/
def readWord : Text := if a.field.isRef then "Borrow" else "Get"
def writeWord : Text := if a.field.isRef then "Replace" else "Set"

/-- The beginning of a method head. -/
def receiver : Text := "func (" ++ receiverName ++ " " ++ a.meaning ++ ") "

def lines : List Line :=
  braced (a.receiver ++ a.field.name ++ "() " ++ a.field.type)
      [line ("return " ++ a.cell.text ++ "." ++ a.readWord ++ "()")] ++
    braced (a.receiver ++ setterName a.field.name ++ "(v " ++ a.field.type ++ ")")
      [line (a.cell.text ++ "." ++ a.writeWord ++ "(v)")]

end AccessorCode

/-! ### Methods -/

/-- A method of a handle type: its dispatch, then its own body. -/
structure MethodCode where
  meaning : Text
  name : Text
  decl : MethodDecl
  dispatch : Dispatch
  deriving DecidableEq, Repr

def MethodCode.lines (f : MethodCode) : List Line :=
  docLines f.decl.doc ++ [line (methodHead f.meaning f.name f.decl.params f.decl.results ++ " \x7b")] ++
    indented f.dispatch.lines ++ bodyLines f.decl.body ++ [line "\x7d", blank]

end MeaningForest.Code

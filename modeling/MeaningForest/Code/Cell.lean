import MeaningForest.Code.Line
import MeaningForest.Host.Signature
import MeaningForest.Naming
import MeaningForest.Symbol.Table

/-!
# Cells of layers

An object is a chain of layers, one for each meaning of its ancestry.  A layer has a cell for each field of its meaning
and a tag that leads to the next layer.  A cell is reached from a handle through the handles embedded in it to the
root layer, and from there along the tags.
-/

namespace MeaningForest.Code

/-- The tags that lead from the layer of the first meaning to that of the last. -/
def layerTags : List Text → List Text
  | a :: b :: rest => toLayerName a b :: layerTags (b :: rest)
  | _ => []

/-- The way from an expression for a layer to a cell. -/
structure CellPath where
  base : Text
  tags : List Text
  cell : Text
  deriving DecidableEq, Repr

/-- The selection of one field after the other. -/
def selections (names : List Text) : Text := names.flatMap (0x2e :: ·)

/-- The step to the next layer. -/
def tagStep (tag : Text) : Text := ".variant.(" ++ tag ++ ").next"

/-- The expression for a cell. -/
def CellPath.text (p : CellPath) : Text := p.base ++ p.tags.flatMap tagStep ++ selections [p.cell]

/-- The expression for the root layer: the embedded handles from the receiver on, then the root. -/
def rootLayer (selectors : List Text) : Text :=
  receiverName ++ selections selectors ++ Text.ofString ".root.Get()"

/-- The kind of a cell. -/
def cellKind (f : FieldSlot) : Text := if f.isRef then "Ref" else "Value"

/-- The type of the cell of a field. -/
def cellType (f : FieldSlot) : Text :=
  (if f.isRef then Text.ofString "*" else []) ++ runtimeName ++ "." ++ cellKind f ++ "[" ++ f.type ++ "]"

/-- The expression for the initial cell of a field. -/
def cellInit (f : FieldSlot) : Text :=
  runtimeName ++ ".New" ++ cellKind f ++ "[" ++ f.type ++ "](" ++ f.init ++ ")"

/-- The initial value of a chain of layers. -/
inductive LayerLiteral where
  /-- The last layer, which ends with its terminal tag. -/
  | last (cells : List FieldSlot) (tag : Text)
  /-- A layer with the tag and the type name of the next one. -/
  | next (cells : List FieldSlot) (tag layer : Text) (rest : LayerLiteral)
  deriving DecidableEq, Repr

namespace LayerLiteral

/-- The lines of the cells of a layer. -/
def cellLines (cells : List FieldSlot) : List Line := cells.map fun f => line (f.name ++ ": " ++ cellInit f ++ ",")

/-- The lines between the braces of a literal. -/
def lines : LayerLiteral → List Line
  | last cells tag => cellLines cells ++ [line ("variant: " ++ tag ++ "\x7b\x7d,")]
  | next cells tag layer rest =>
    cellLines cells ++ block ("variant: " ++ tag ++ "\x7bnext: &" ++ layer ++ "\x7b") rest.lines "\x7d\x7d,"

/-- The literal of a chain of meanings, given with their fields. -/
def ofChain (m : Text) (fields : List FieldSlot) : List (Text × List FieldSlot) → LayerLiteral
  | [] => last fields (terminalName m)
  | (sub, subFields) :: rest => next fields (toLayerName m sub) (layerName sub) (ofChain sub subFields rest)

end LayerLiteral

end MeaningForest.Code

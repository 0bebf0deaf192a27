import MeaningForest.Text.Utf8

/-!
# Generated names

Every declaration that is generated for a meaning has a name made of the meaning's name.  This module has those names,
and the choice of a local name that differs from a given list of names.
-/

namespace MeaningForest

/-! ### Names of generated declarations -/

def layerName (m : Text) : Text := "layer" ++ m.capitalize
def variantName (m : Text) : Text := layerName m ++ Text.ofString "Variant"
def terminalName (m : Text) : Text := layerName m ++ Text.ofString "Terminal"
def infoName (m : Text) : Text := "info" ++ m.capitalize
def ctorName (m : Text) : Text := "ctor" ++ m.capitalize
def initName (m : Text) : Text := "init" ++ m.capitalize
def newName (m : Text) : Text := "New" ++ m.capitalize
def downcastName (m : Text) : Text := "To" ++ m.capitalize
def dispatchName (m : Text) : Text := "as" ++ m.capitalize

/-- The tag in a layer of `m` that continues with a layer of its submeaning `sub`. -/
def toLayerName (m sub : Text) : Text := layerName m ++ "To" ++ sub.capitalize

/-- The method that implements an override of `method` in `m`. -/
def overrideName (m method : Text) : Text := "override" ++ m.capitalize ++ method.capitalize

/-- The method that closes the set of tags of a layer. -/
def markerName (m : Text) : Text := "is" ++ (variantName m).capitalize

/-- The setter of a field is visible exactly if the field is. -/
def setterName (field : Text) : Text :=
  (if field.startsWithCapital then "Set" else "set") ++ field.capitalize

/-- The package-level names that are generated for a meaning with the given submeanings. -/
def topLevelNames (m : Text) (subs : List Text) : List Text :=
  [layerName m, variantName m, terminalName m, infoName m, ctorName m, initName m, newName m] ++
    subs.map (toLayerName m)

/-! ### Free names -/

/-- The candidates for a local name: the base, then the base with a number. -/
def nameCandidate (base : Text) (i : Nat) : Text := if i = 0 then base else base ++ Text.ofNat i

/-- The first candidate that is not taken.  Among one more candidates than taken names there always is one, as
candidates are distinct. -/
def freeName (base : Text) (taken : List Text) : Text :=
  (((List.range (taken.length + 1)).map (nameCandidate base)).find? (!taken.contains ·)).getD base

/-- Local names for the meanings on a path, each different from the parameters and from the names before it. -/
def dispatchNames (params : List Text) : List Text → List Text
  | [] => []
  | m :: path =>
    let v := freeName (dispatchName m) params
    v :: dispatchNames (params ++ [v]) path

end MeaningForest

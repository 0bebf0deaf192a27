import MeaningForest.Code.Cell
import MeaningForest.Symbol.Ancestry
import MeaningForest.Symbol.Table

/-!
# Questions to a symbol table

Ancestries, members found along them, the override that applies to an object, and the texts that lead from one layer
of an object to another.
-/

namespace MeaningForest.SymbolTable

variable (t : SymbolTable)

/-- The parent of a meaning. -/
def parentOf (s : Symbol) : Except Fault (Option Symbol) := do
  let p := (← t.meaning s).inherits
  return if p.isNone then none else some p

/-- The meanings from the root to `s`.  They are at most one more than the symbols of its arena. -/
def ascending (s : Symbol) : Except Fault (List Symbol) := do
  let d ← t.meaning s
  let limit := (s.map fun h => t.size h.arena).getD 0
  ancestry t.parentOf (.endlessAncestry d.name) (limit + 1) (some s)

/-- The nearest of the meanings, root first, for which `find` gives something. -/
def nearest {α : Type} (find : MeaningSlot → Option α) :
    List Symbol → Except Fault (Option (Symbol × α))
  | [] => .ok none
  | s :: above => do
    match find (← t.meaning s) with
    | some a => return some (s, a)
    | none => nearest find above

/-- The nearest method of a name, from `s` upwards. -/
def lookupMethod (s : Symbol) (name : Text) : Except Fault (Option Symbol) :=
  return (← t.nearest (·.methods.get? name) (← t.ascending s).reverse).map Prod.snd

/-- The nearest field of a name, from `s` upwards, and the meaning that has it. -/
def lookupField (s : Symbol) (name : Text) : Except Fault (Option (Symbol × Symbol)) :=
  return (← t.nearest (·.fields.get? name) (← t.ascending s).reverse).map fun (owner, f) => (f, owner)

/-- The code of the override of a method that applies to an object with the given ancestry. -/
def resolveOverride (method : Symbol) (asc : List Symbol) : Except Fault (Option Text) :=
  if asc.isEmpty then .ok none
  else do
    let d ← t.method method
    match after? d.definedIn asc with
    | none => return none
    | some path => return d.mapping.resolve path

/-- The names of the handles embedded in each other from `source` up to its ancestor `target`. -/
def handlePath (asc : List Symbol) (source target : Symbol) : Except Fault (List Text) :=
  match pathUp? asc source target with
  | none => .error (.notAncestor (t.mention target) (t.mention source))
  | some path => path.mapM t.name

/-- The expression that leads from the layer `base` of the `i`-th meaning to a cell of the last. -/
def matchField (asc : List Symbol) (i : Int) (base cell : Text) : Except Fault Text := do
  if i = (asc.length : Int) - 1 then return Code.CellPath.text ⟨base, [], cell⟩
  else
    discard (elementAt asc i)
    return Code.CellPath.text ⟨base, Code.layerTags (← (asc.drop i.toNat).mapM t.name), cell⟩

/-- The names of the package-level declarations for a meaning. -/
def topLevelNames (s : Symbol) : Except Fault (List Text) := do
  let name ← t.name s
  let d ← t.meaning s
  return MeaningForest.topLevelNames name (← d.submeanings.mapM t.name)

/-- Local names for the meanings on a path. -/
def dispatchNames (path : List Symbol) (params : List Text) : Except Fault (List Text) :=
  return MeaningForest.dispatchNames params (← path.mapM t.name)

end MeaningForest.SymbolTable

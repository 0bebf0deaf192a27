import MeaningForest.Analysis.Problem
import MeaningForest.Declaration.Basic
import MeaningForest.Naming
import MeaningForest.Symbol.Ancestry

/-!
# The forest of meanings

The meanings of a file form a forest.  A declaration is registered unless its name is taken or reserved.  A parent
that is not registered is reported and left out; so is the parent of each meaning that would otherwise be its own
ancestor.  What remains has no cycles, and every meaning has an ancestry.
-/

namespace MeaningForest

/-- A registered meaning and the name of its parent. -/
structure ForestNode where
  decl : MeaningDecl
  parent : Option Text
  deriving DecidableEq, Repr

/-- The registered meanings in the order of their declarations. -/
structure Forest where
  nodes : List ForestNode := []
  deriving DecidableEq, Repr

namespace ForestNode

def name (n : ForestNode) : Text := n.decl.name

end ForestNode

namespace Forest

variable [Language]

/-- The names of the meanings. -/
def names (f : Forest) : List Text := f.nodes.map (·.name)

/-- The meaning of a name. -/
def node? (f : Forest) (m : Text) : Option ForestNode := f.nodes.find? (·.name == m)

/-- The parent of a meaning. -/
def parent? (f : Forest) (m : Text) : Option Text := (f.node? m).bind (·.parent)

/-- The meanings with a given parent. -/
def submeanings (f : Forest) (m : Text) : List Text := (f.nodes.filter (·.parent == some m)).map (·.name)

/-- The ancestry of a meaning, root first. -/
def ascending (f : Forest) (m : Text) : Except Fault (List Text) :=
  ancestry (fun a => .ok (f.parent? a)) (.endlessAncestry m) (f.nodes.length + 1) (some m)

/-! ### Registration -/

/-- Why a declaration is not registered when the given meanings are. -/
def rejection? (arena : Text) (registered : List MeaningDecl) (d : MeaningDecl) : Option AnalysisProblem :=
  if registered.any (·.name == d.name) then some (.duplicateMeaning d.name)
  else if d.name = arena then some (.arenaConflict arena)
  else if d.name = runtimeName ∨ d.name = Text.ofString "_" then some (.reservedMeaningName d.name)
  else none

/-- Registers one declaration or reports it. -/
def register (arena : Text) (acc : List MeaningDecl × List Finding) (d : MeaningDecl) :
    List MeaningDecl × List Finding :=
  match rejection? arena acc.1 d with
  | some p => (acc.1, acc.2 ++ [.found d.position p])
  | none => (acc.1 ++ [d], acc.2)

/-! ### Parents -/

/-- A declaration with its parent, if that is registered. -/
def attach (registered : List MeaningDecl) (d : MeaningDecl) : ForestNode :=
  { decl := d
    parent := if d.parent ≠ [] ∧ registered.any (·.name == d.parent) then some d.parent else none }

/-- What is wrong with the parent that a declaration names. -/
def unknownParent? (registered : List MeaningDecl) (d : MeaningDecl) : Option Finding :=
  if d.parent ≠ [] ∧ ¬ registered.any (·.name == d.parent) then
    some (.found d.parentPosition (.unknownParent d.name d.parent))
  else none

/-- The names on the way up from `a` to `m`, if the way leads there within a number of steps. -/
def wayTo? (f : Forest) (m : Text) : (steps : Nat) → Text → Option (List Text)
  | 0, _ => none
  | steps + 1, a =>
    match f.parent? a with
    | none => none
    | some p => if p = m then some [p] else (f.wayTo? m steps p).map (p :: ·)

/-- The cycle of parents through a meaning: it is no longer than there are meanings. -/
def cycle? (f : Forest) (m : Text) : Option (List Text) := (f.wayTo? m f.nodes.length m).map (m :: ·)

/-- Makes a meaning a root. -/
def detach (f : Forest) (m : Text) : Forest :=
  ⟨f.nodes.map fun n => if n.name = m then { n with parent := none } else n⟩

/-- Makes a meaning on a cycle a root and reports it. -/
def breakCycle (acc : Forest × List Finding) (n : ForestNode) : Forest × List Finding :=
  match acc.1.cycle? n.name with
  | some cycle => (acc.1.detach n.name, acc.2 ++ [.found n.decl.parentPosition (.inheritanceCycle n.name cycle)])
  | none => acc

/-- Adds declared meanings to a forest. -/
def extend (f : Forest) (arena : Text) (decls : List MeaningDecl) : Forest × List Finding :=
  let (registered, rejected) := decls.foldl (register arena) (f.nodes.map (·.decl), [])
  let nodes := registered.map (attach registered)
  let (forest, cycles) := nodes.foldl breakCycle (⟨nodes⟩, [])
  (forest, rejected ++ registered.filterMap (unknownParent? registered) ++ cycles)

/-- The forest of declared meanings. -/
def ofDecls (arena : Text) (decls : List MeaningDecl) : Forest × List Finding := extend {} arena decls

/-- A forest is made by registering, attaching to parents and breaking cycles. -/
theorem ofDecls_eq (arena : Text) (decls : List MeaningDecl) : ofDecls arena decls =
    let made := decls.foldl (register arena) ([], [])
    let nodes := made.1.map (attach made.1)
    let broken := nodes.foldl breakCycle (⟨nodes⟩, [])
    (broken.1, made.2 ++ made.1.filterMap (unknownParent? made.1) ++ broken.2) := rfl

/-! ### Generated names -/

/-- The owners of generated names. -/
abbrev Owners := List (Text × Text)

/-- Takes names for a meaning up to the first that belongs to another; says whether there was one. -/
def takeNames (m : Text) : Owners → List Text → Owners × Bool
  | owners, [] => (owners, false)
  | owners, name :: names =>
    match owners.lookup name with
    | some owner => if owner = m then takeNames m owners names else (owners, true)
    | none => takeNames m (owners ++ [(name, m)]) names

/-- Takes the package-level names of a meaning. -/
def takeTopLevel (f : Forest) (acc : Owners × List Finding) (n : ForestNode) : Owners × List Finding :=
  match takeNames n.name acc.1 (topLevelNames n.name (f.submeanings n.name)) with
  | (owners, true) => (owners, acc.2 ++ [.found n.decl.position (.duplicateMeaning n.name)])
  | (owners, false) => (owners, acc.2)

/-- The conflicts between package-level names: of two meanings, of a meaning and the arena, and between the name of a
meaning and a generated one. -/
def nameFindings (f : Forest) (arena : Text) : List Finding :=
  let (owners, clashes) := f.nodes.foldl f.takeTopLevel ([], [])
  let isGenerated := fun name => (owners.lookup name).isSome
  clashes ++ (if isGenerated arena then [.found ⟨1, 1⟩ (.arenaConflict arena)] else []) ++
    (f.nodes.filter fun n => isGenerated n.name).map fun n => .found n.decl.position (.reservedMeaningName n.name)

/-! ### Order -/

/-- The meanings with their ancestries, those with shorter ones first, otherwise as declared. -/
def byDepth (f : Forest) : Except Fault (List (ForestNode × List Text)) := do
  let ranked ← f.nodes.mapM fun n => return (n, ← f.ascending n.name)
  return ranked.mergeSort fun a b => a.2.length ≤ b.2.length

end Forest

end MeaningForest

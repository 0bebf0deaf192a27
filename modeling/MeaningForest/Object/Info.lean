import MeaningForest.Fault

/-!
# Run-time information on meanings

Each meaning of a running program has one information record with its name, its package and the record of its parent.
Records are compared by identity: two records with the same names are two meanings.

* `Info.isSubmeaningOf_iff`: a record is below exactly those records that stand before it in its ancestry.
-/

namespace MeaningForest

/-- The names of a meaning and the identity of its record. -/
structure InfoNames (ι : Type) where
  identity : ι
  name : Text
  package : Text
  fullName : Text
  deriving DecidableEq, Repr

/-- The record of a meaning: that of a root, or one with a parent. -/
inductive Info (ι : Type) where
  | root (names : InfoNames ι)
  | sub (names : InfoNames ι) (parent : Info ι)
  deriving DecidableEq, Repr

namespace Info

variable {ι : Type} [DecidableEq ι]

def names : Info ι → InfoNames ι
  | root n => n
  | sub n _ => n

def identity (i : Info ι) : ι := i.names.identity

/-- A record, given its parent if it has one. -/
def make (names : InfoNames ι) : Option (Info ι) → Info ι
  | none => root names
  | some parent => sub names parent

/-- The records from the root to this one. -/
def ascending : Info ι → List (InfoNames ι)
  | root n => [n]
  | sub n parent => ascending parent ++ [n]

/-- Whether a record with the given identity is strictly above this one. -/
def isSubmeaningOf : Info ι → ι → Bool
  | root _, _ => false
  | sub _ parent, other => parent.identity == other || isSubmeaningOf parent other

theorem isSubmeaningOf_iff (i : Info ι) (other : ι) :
    i.isSubmeaningOf other = true ↔ other ∈ i.ascending.dropLast.map (·.identity) := by
  induction i with
  | root n => simp [isSubmeaningOf, ascending]
  | sub n parent ih =>
    have h : parent.ascending = parent.ascending.dropLast ++ [parent.names] := by
      cases parent <;> simp [ascending, names]
    rw [isSubmeaningOf, ascending, List.dropLast_concat, h]
    rw [List.map_append, List.mem_append, ← ih]
    simp [identity]
    grind

end Info

/-- The ancestry of a record that may be missing; a missing one has none. -/
def infoAscending {ι : Type} [DecidableEq ι] (i : Option (Info ι)) : List (InfoNames ι) :=
  (i.map Info.ascending).getD []

/-- A record that has to be there. -/
def requireInfo {ι : Type} : Option (Info ι) → Except Fault (Info ι)
  | some i => .ok i
  | none => .error .missingObject

end MeaningForest

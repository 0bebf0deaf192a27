import MeaningForest.Symbol.Kind
import MeaningForest.Text.Quoted

/-!
# Faults

A fault is a use of the library that breaks one of its rules: a handle that outlived its arena, a symbol of the wrong
kind, an index outside a list.  Operations that can be misused answer `Except Fault`.
-/

namespace MeaningForest

/-- The ways in which an operation can be misused. -/
inductive Fault where
  /-- A part of a text that ends beyond the text. -/
  | cutBeyondEnd (stop length : Nat)
  /-- An index outside a list. -/
  | indexOutOfRange (index : Int) (length : Nat)
  /-- A missing object was used. -/
  | missingObject
  /-- The empty symbol was used. -/
  | zeroSymbol
  /-- A handle was used with an arena that did not make it. -/
  | foreignHandle
  /-- A handle was used after its arena was released. -/
  | staleHandle (index generation current : Nat)
  /-- A symbol of one kind was used as another. -/
  | wrongKind (name : Text) (actual expected : SymbolKind)
  /-- The parents of a meaning never end. -/
  | endlessAncestry (name : Text)
  /-- An override was registered without a path. -/
  | emptyOverridePath
  /-- A path was asked from a meaning to one that is not its ancestor; the texts describe the two. -/
  | notAncestor (target source : Text)
  /-- An object was allocated in a released arena. -/
  | releasedArena
  /-- The empty object handle was used. -/
  | zeroHandle
  /-- An object handle was used after its arena was released. -/
  | outlivedArena
  /-- A collection is a key where keys have to be compared. -/
  | uncomparableKey (type : Text)
  deriving DecidableEq, Repr

namespace Fault

/-- The wording of a fault. -/
def message : Fault → Text
  | cutBeyondEnd stop length =>
    "runtime error: slice bounds out of range [:" ++ Text.ofNat stop ++ "] with length " ++ Text.ofNat length
  | indexOutOfRange index length =>
    if index < 0 then "runtime error: index out of range [" ++ Text.ofInt index ++ "]"
    else "runtime error: index out of range [" ++ Text.ofInt index ++ "] with length " ++ Text.ofNat length
  | missingObject => "runtime error: invalid memory address or nil pointer dereference"
  | zeroSymbol => "symbol: use of zero Symbol"
  | foreignHandle => "symbol: handle belongs to another arena"
  | staleHandle index generation current =>
    "symbol: stale handle " ++ Text.ofNat index ++ " (generation " ++ Text.ofNat generation ++ ", arena at "
      ++ Text.ofNat current ++ ")"
  | wrongKind name actual expected =>
    "symbol: " ++ Text.quote name ++ " is a " ++ actual.word ++ " slot, not a " ++ expected.word ++ " slot"
  | endlessAncestry name => "symbol: inheritance cycle through " ++ Text.quote name
  | emptyOverridePath => "symbol: override path is empty"
  | notAncestor target source => "transpiler: " ++ target ++ " is not an ancestor of " ++ source
  | releasedArena => "meaning: allocate on a released arena"
  | zeroHandle => "meaning: use of zero handle"
  | outlivedArena => "meaning: handle outlived its arena"
  | uncomparableKey type => "runtime error: hash of unhashable type " ++ type

end Fault

end MeaningForest

import MeaningForest.Text.Basic

/-!
# Kinds of symbols

A symbol stands for a meaning, for a field of a meaning or for a method of a meaning.
-/

namespace MeaningForest

/-- What a symbol stands for. -/
inductive SymbolKind where
  | meaning
  | field
  | method
  deriving DecidableEq, Repr

namespace SymbolKind

/-- The word for a kind. -/
def word : SymbolKind → Text
  | .meaning => "meaning"
  | .field => "field"
  | .method => "method"

/-- The kinds are numbered from one. -/
def number : SymbolKind → Nat
  | .meaning => 1
  | .field => 2
  | .method => 3

/-- The word for the kind with a given number. -/
def wordOfNumber (n : Int) : Text :=
  match [SymbolKind.meaning, .field, .method].find? fun k => (k.number : Int) = n with
  | some k => k.word
  | none => "unknown"

end SymbolKind

end MeaningForest

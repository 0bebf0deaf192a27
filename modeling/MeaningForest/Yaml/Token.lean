import MeaningForest.Yaml.Cursor

/-!
# Tokens of YAML documents

The tokens of a document are its marks, its scalars, and the starts and ends of blocks, which follow from indentation.
-/

namespace MeaningForest.Yaml

/-- What a token is. -/
inductive TokenKind where
  | version (major minor : Nat)
  | tagDirective (handle leader : Text)
  | documentStart
  | documentEnd
  | streamEnd
  | blockSequenceStart
  | blockMappingStart
  | blockEnd
  | flowSequenceStart
  | flowSequenceEnd
  | flowMappingStart
  | flowMappingEnd
  | blockEntry
  | flowEntry
  | key
  | value
  | reference (name : Text)
  | anchor (name : Text)
  | tag (handle suffix : Text)
  | scalar (text : Text) (isPlain : Bool)
  deriving DecidableEq, Repr

/-- A token with the places where it starts and stops. -/
structure Token where
  kind : TokenKind
  start : Mark
  stop : Mark
  deriving DecidableEq, Repr

end MeaningForest.Yaml

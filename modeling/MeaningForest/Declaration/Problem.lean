import MeaningForest.Catalog.Wording
import MeaningForest.Text.Quoted
import MeaningForest.Token.Basic

/-!
# Problems of reading declarations

What can be wrong with the form of a declaration file, and how it is worded.
-/

namespace MeaningForest

/-- How messages mention a token: identifiers and stray bytes are quoted, others are named by their kind. -/
def Token.describe (t : Token) : Text :=
  match t.kind with
  | .ident | .operator | .illegal => t.literal.quote
  | k => k.name

/-- A defect of a declaration file. -/
inductive ReadProblem where
  /-- Another kind of token was required. -/
  | expected (kind : TokenKind) (found : Token)
  /-- The source ended inside a group. -/
  | unterminated (what : Text)
  /-- A token that starts no member. -/
  | unexpectedMember (found : Token)
  /-- A token that starts no declaration. -/
  | unexpectedTopLevel (found : Token)
  | missingFieldType (field : Text)
  | missingFieldDefault (field : Text)
  /-- A structured document that cannot be decoded, with the reason. -/
  | undecodable (reason : Text)
  /-- A required key of a structured document is absent. -/
  | missingKey (place key : Text)
  deriving DecidableEq, Repr

namespace ReadProblem

/-- The wording of a problem. -/
def message (lang : Language) : ReadProblem → Text
  | expected kind found => Notice.expectedToken.word lang [kind.name, found.describe]
  | unterminated what => Notice.unterminated.word lang [what]
  | unexpectedMember found => Notice.unexpectedMember.word lang [found.describe]
  | unexpectedTopLevel found => Notice.unexpectedTopLevel.word lang [found.describe]
  | missingFieldType field => Notice.missingFieldType.word lang [field]
  | missingFieldDefault field => Notice.missingFieldInit.word lang [field]
  | undecodable reason => Notice.undecodableDocument.word lang [reason]
  | missingKey place key => Notice.missingKey.word lang [place, key]

end ReadProblem

/-- Kinds of problems that can be worded. -/
class Problem (α : Type) where
  message (lang : Language) (problem : α) : Text

instance : Problem ReadProblem := ⟨ReadProblem.message⟩

/-- A problem at its place, in the words in which it was found. -/
structure Located (α : Type) where
  position : Position
  problem : α
  message : Text
  deriving DecidableEq, Repr

namespace Located

variable {α : Type} [lang : Language] [Problem α]

/-- A problem that is found at a place: it is worded at once. -/
def found (position : Position) (problem : α) : Located α := ⟨position, problem, Problem.message lang problem⟩

@[simp] theorem position_found (position : Position) (problem : α) : (found position problem).position = position := rfl

@[simp] theorem problem_found (position : Position) (problem : α) : (found position problem).problem = problem := rfl

@[simp] theorem found_inj {position : Position} {problem problem' : α} :
    found position problem = found position problem' ↔ problem = problem' :=
  ⟨fun h => congrArg Located.problem h, fun h => h ▸ rfl⟩

end Located

end MeaningForest

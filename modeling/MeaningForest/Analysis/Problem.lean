import MeaningForest.Declaration.Problem
import MeaningForest.Diagnostic
import MeaningForest.Host.Signature

/-!
# Problems of analysis

What can be wrong with declarations that can be read, and how it is worded.
-/

namespace MeaningForest

/-- A defect of the declared meanings.  The first argument is the meaning concerned. -/
inductive AnalysisProblem where
  | redefining (field : Text)
  | duplicateMeaning (meaning : Text)
  | reservedMeaningName (meaning : Text)
  | arenaConflict (arena : Text)
  | unknownParent (meaning parent : Text)
  | inheritanceCycle (meaning : Text) (cycle : List Text)
  | memberConflict (meaning member owner : Text)
  | duplicateConstructor (meaning : Text)
  | superWithoutParent (meaning : Text)
  | missingSuper (meaning parent : Text)
  | unnamedParams (meaning what : Text)
  | invalidParams (meaning what : Text) (fault : SignatureFault)
  | methodTypeParams (meaning method : Text)
  | duplicateMethod (meaning method : Text)
  | mustOverride (meaning method owner : Text)
  | overrideMissing (meaning method : Text)
  | overrideSignature (meaning method signature owner : Text)
  deriving DecidableEq, Repr

namespace AnalysisProblem

/-- The wording of a problem. -/
def message (lang : Language) : AnalysisProblem → Text
  | redefining field => Notice.redefining.word lang [field]
  | duplicateMeaning m => Notice.duplicateMeaning.word lang [m]
  | reservedMeaningName m => Notice.reservedMeaningName.word lang [m]
  | arenaConflict arena => Notice.arenaConflict.word lang [arena]
  | unknownParent m parent => Notice.unknownParent.word lang [m, parent]
  | inheritanceCycle m cycle => Notice.inheritanceCycle.word lang [m, Text.join " -> " cycle]
  | memberConflict m member owner => Notice.memberConflict.word lang [m, member, owner]
  | duplicateConstructor m => Notice.duplicateConstructor.word lang [m]
  | superWithoutParent m => Notice.superWithoutParent.word lang [m]
  | missingSuper m parent => Notice.missingSuper.word lang [m, parent]
  | unnamedParams m what => Notice.unnamedParams.word lang [m, what]
  | invalidParams m what fault => Notice.invalidParams.word lang [m, what, fault.message]
  | methodTypeParams m method => Notice.methodTypeParams.word lang [m, method]
  | duplicateMethod m method => Notice.duplicateMethod.word lang [m, method]
  | mustOverride m method owner => Notice.mustOverride.word lang [m, method, owner]
  | overrideMissing m method => Notice.overrideMissing.word lang [m, method]
  | overrideSignature m method signature owner => Notice.overrideSignature.word lang [m, method, signature, owner]

end AnalysisProblem

instance : Problem AnalysisProblem := ⟨AnalysisProblem.message⟩

/-- A problem of analysis at its place. -/
abbrev Finding := Located AnalysisProblem

/-- A located problem of a file as it is shown to a user. -/
def Located.diagnostic {α : Type} (file : Text) (p : Located α) : Diagnostic :=
  { file, line := p.position.line, column := p.position.column, message := p.message }

end MeaningForest

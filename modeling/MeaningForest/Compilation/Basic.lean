import MeaningForest.Code.File
import MeaningForest.Declaration.Document

/-!
# Compilation of declarations

A declaration file is read, analysed and turned into code.  It is rejected if it cannot be read or if the analysis finds
a problem; otherwise its code goes to the formatter, which may refuse it.
-/

namespace MeaningForest

/-- Why a file is not compiled. -/
inductive Rejection where
  /-- The file cannot be read. -/
  | unreadable (file : Text) (problems : List (Located ReadProblem))
  /-- The analysis has findings. -/
  | faulty (analysis : Analysis)
  /-- The formatter refuses the generated code. -/
  | broken (file source fault : Text)
  deriving DecidableEq, Repr

namespace Rejection

/-- The diagnostics of a rejection. -/
def diagnostics : Rejection → List Diagnostic
  | unreadable file problems => problems.map (Located.diagnostic file)
  | faulty a => a.diagnostics
  | broken .. => []

/-- The wording of a rejection. -/
def message (lang : Language) : Rejection → Text
  | unreadable file problems => Diagnostic.readSummary (unreadable file problems).diagnostics
  | faulty a => Diagnostic.summary a.diagnostics
  | broken file _ fault => file ++ ": " ++ Notice.brokenGeneratedCode.word lang [fault]

end Rejection

/-- The two forms of declaration files. -/
inductive DeclFormat where
  | source
  | document
  deriving DecidableEq, Repr

variable [Language]

/-- Reads a declaration file of either form. -/
def DeclFormat.read (format : DeclFormat) (name text : Text) : Except Fault ReadResult :=
  match format with
  | .source => DeclFile.read name text
  | .document => DeclFile.readDocument name text

/-- The declarations of a file that has no problems. -/
def ReadResult.accept (r : ReadResult) (name : Text) : Except Rejection DeclFile :=
  if r.problems.isEmpty then .ok r.file else .error (.unreadable name r.problems)

namespace Analysis

/-- The code of an analysis without findings. -/
def generate (settings : Settings) (a : Analysis) : Except Fault (Except Rejection Code.FileCode) :=
  if a.findings.isEmpty then return .ok (← a.fileCode settings) else return .error (.faulty a)

end Analysis

/-- The code of declarations. -/
def DeclFile.generate (settings : Settings) (f : DeclFile) : Except Fault (Except Rejection Code.FileCode) := do
  (← Analysis.ofFile settings f).generate settings

/-- A formatter of host code.  It is told whether it may change the imports of a source, and gives the formatted source
or says why it refuses the source. -/
abbrev Formatter := Bool → Text → Except Text Text

/-- The formatted code of declarations. -/
def DeclFile.compile (format : Formatter) (settings : Settings) (f : DeclFile) :
    Except Fault (Except Rejection Text) := do
  match ← f.generate settings with
  | .error e => return .error e
  | .ok code =>
    match format settings.fixImports code.text with
    | .ok text => return .ok text
    | .error fault => return .error (.broken f.name code.text fault)

end MeaningForest

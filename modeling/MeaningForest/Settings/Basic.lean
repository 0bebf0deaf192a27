import MeaningForest.Text.Basic

/-!
# Settings

The settings of a project say what declaration files leave open and where generated files go.
-/

namespace MeaningForest

/-- The settings of a project. -/
structure Settings where
  /-- The package of files that name none. -/
  package : Text := "model"
  /-- The arena type of files that name none. -/
  arena : Text := "Arena"
  /-- The import path of the runtime package. -/
  runtime : Text := "github.com/tangzhangming/meantree/pkg/meaning"
  /-- The output directory, empty for the place of the input. -/
  dir : Text := []
  /-- How names of generated files end. -/
  suffix : Text := "_mt.go"
  /-- Whether unused imports are removed from generated code. -/
  fixImports : Bool := true
  deriving DecidableEq, Repr

end MeaningForest

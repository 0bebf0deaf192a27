import MeaningForest.Text.Basic

/-!
# Diagnostics

A diagnostic is a problem as it is shown to a user, with the file and the place it concerns.  This module has its text,
the summary of several, and the excerpt of a source that points at a place.
-/

namespace MeaningForest

/-- A problem with its place; without a positive line it concerns the whole file. -/
structure Diagnostic where
  file : Text
  line : Int
  column : Int
  message : Text
  isWarning : Bool := false
  deriving DecidableEq, Repr

namespace Diagnostic

/-- A diagnostic as `file:line:column: message`. -/
def text (d : Diagnostic) : Text :=
  let file : Text := if d.file.isEmpty then [] else d.file ++ ":"
  let place : Text :=
    if 0 < d.line then Text.ofInt d.line ++ ":" ++ Text.ofInt d.column ++ ": "
    else if d.file.isEmpty then [] else Text.ofString " "
  file ++ place ++ d.message

/-- The number of diagnostics that are not warnings. -/
def countErrors (ds : List Diagnostic) : Nat := (ds.filter (!·.isWarning)).length

/-- The first diagnostic and the number of others. -/
def summary : List Diagnostic → Text
  | [] => "transpile error"
  | [d] => d.text
  | d :: ds => d.text ++ " (and " ++ Text.ofNat ds.length ++ " more)"

/-- The first of the problems found while reading. -/
def readSummary : List Diagnostic → Text
  | [] => "parse error"
  | d :: _ => d.text

end Diagnostic

/-- A number followed by spaces, at least `width` bytes in all. -/
private def padNumber (width : Nat) (n : Int) : Text :=
  let digits := Text.ofInt n
  digits ++ List.replicate (width - digits.length) 0x20

/-- The line of a source at a place, and a caret below the column.  Leading blanks are left out of both. -/
def excerpt? (source : Text) (line column : Int) : Option (Text × Text) :=
  if line < 1 then none
  else match source.lines[(line - 1).toNat]? with
    | none => none
    | some whole =>
      let text := Text.trimEndWhile (· == 0x0d) whole
      let trimmed := text.dropWhile fun b => b == 0x20 || b == 0x09
      let indent := text.length - trimmed.length
      let width := (Text.ofInt line).length + 1
      let caret := (column - 1 - indent).toNat
      some (padNumber width line ++ "|  " ++ trimmed,
        List.replicate width 0x20 ++ Text.ofString "|  " ++ List.replicate caret 0x20 ++ Text.ofString "^")

end MeaningForest

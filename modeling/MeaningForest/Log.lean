import MeaningForest.Collections.OrderedMap
import MeaningForest.Diagnostic
import MeaningForest.Path

/-!
# Log

The log of a run counts errors and warnings and collects what is printed.  Its level decides what is shown; it has no
influence on the counts.

* `Log.error_errorCount`, `Log.warning_errorCount`: an error is counted at every level, a warning is no error.
* `Log.diagnostics_errorCount`: the diagnostics that are not warnings are counted.
-/

namespace MeaningForest

/-! ### Printed text -/

/-- A byte of a style tag such as `<fg=red>`. -/
private def isTagByte (b : UInt8) : Bool :=
  Text.isAsciiLetter b || Text.isDigit b || b == 0x5f || b == 0x3d || b == 0x2c || b == 0x3b

/-- The number of bytes of the style tag at the start of a text, zero if there is none. -/
private def tagLength : Text → Nat
  | 0x3c :: rest =>
    let slash := if rest.head? == some 0x2f then 1 else 0
    let name := ((rest.drop slash).takeWhile isTagByte).length
    if (rest.drop (slash + name)).head? == some 0x3e then slash + name + 2 else 0
  | _ => 0

/-- A byte of a colour code between its bracket and its `m`. -/
private def isColourByte (b : UInt8) : Bool := Text.isDigit b || b == 0x3b || b == 0x3f

/-- The number of bytes of the terminal colour code at the start of a text, zero if there is none. -/
private def colourLength : Text → Nat
  | 0x1b :: 0x5b :: rest =>
    let digits := (rest.takeWhile isColourByte).length
    if 0 < digits && (rest.drop digits).head? == some 0x6d then digits + 3 else 0
  | _ => 0

/-- The text without the units that `measure` finds. -/
private def withoutUnits (measure : Text → Nat) (t : Text) : Text :=
  match t with
  | [] => []
  | b :: rest =>
    if 0 < measure (b :: rest) then withoutUnits measure (rest.drop (measure (b :: rest) - 1))
    else b :: withoutUnits measure rest
termination_by t.length
decreasing_by all_goals (simp only [List.length_drop, List.length_cons]; omega)

/-- The text without style tags; where none of them is closed it is left as it is. -/
private def withoutTags (t : Text) : Text := if Text.includes "</>" t then withoutUnits tagLength t else t

/-- A tag as it is printed where styles are off.  Removing colour codes and tags can bring others together, which are
removed as well, up to a fixed depth. -/
def Text.unstyledTag (t : Text) : Text :=
  withoutTags (withoutTags (withoutUnits colourLength (withoutTags t)))

/-- A line as it is printed where styles are off; tags are removed once more than in a tag. -/
def Text.unstyled (t : Text) : Text := Text.unstyledTag (withoutTags t)

/-! ### Levels -/

/-- How much is shown. -/
inductive LogLevel where
  /-- Nothing. -/
  | silent
  /-- Errors and the summary. -/
  | error
  /-- Also warnings. -/
  | warning
  /-- Also progress. -/
  | verbose
  deriving DecidableEq, Repr

namespace LogLevel

/-- The place of a level in the order from little to much. -/
def rank : LogLevel → Nat
  | silent => 0
  | error => 1
  | warning => 2
  | verbose => 3

/-- The name of a level. -/
def name : LogLevel → Text
  | silent => "silent"
  | error => "error"
  | warning => "warning"
  | verbose => "verbose"

/-- All levels. -/
def all : List LogLevel := [silent, error, warning, verbose]

/-- The level of a name; `warn` is short for `warning`, and an unknown name stands for the highest level. -/
def ofName (name : Text) : LogLevel :=
  if name = silent.name then silent
  else if name = error.name then error
  else if name = warning.name ∨ name = Text.ofString "warn" then warning
  else verbose

/-- Whether messages of a level are shown at another. -/
def shows (level message : LogLevel) : Bool := message.rank ≤ level.rank

end LogLevel

/-! ### The log -/

/-- The log of a run. -/
structure Log where
  level : LogLevel := .verbose
  errorCount : Nat := 0
  warningCount : Nat := 0
  /-- The sources that excerpts are taken from, by path. -/
  sources : OrderedMap Text Text := {}
  /-- Everything printed so far. -/
  printed : Text := []
  deriving DecidableEq, Repr

/-- A line of a message after its tag. -/
def messageLine (tag message : Text) : Text := Text.unstyledTag tag ++ Text.unstyled (" " ++ message) ++ "\n"

/-- A count and its noun. -/
private def counted (n : Nat) (noun : Text) : Text :=
  Text.ofNat n ++ Text.ofString " " ++ noun ++ (if n = 1 then [] else Text.ofString "s")

/-- The width of the line above a diagnostic. -/
private def bannerWidth : Nat := 40

/-- A diagnostic as it is shown: a line with its kind and file, its text and, if the source is known, an excerpt. -/
def Diagnostic.display (d : Diagnostic) (source : Text) : Text :=
  let kind : Text := if d.isWarning then "Warning" else "Error"
  let file := Path.base d.file
  let dashes : Text := List.replicate (max 3 (bannerWidth - file.length - kind.length - 1)) 0x2d
  let banner := "\n-- " ++ kind ++ " " ++ dashes ++ " " ++ file.unstyled ++ "\n"
  let place : Text :=
    if source.isEmpty || d.line == 0 then []
    else match excerpt? source d.line d.column with
      | none => []
      | some (text, caret) => "\n" ++ text ++ "\n" ++ caret.unstyled ++ "\n"
  banner ++ d.text ++ "\n" ++ place

namespace Log

/-- Prints a text, whatever the level. -/
def print (l : Log) (t : Text) : Log := { l with printed := l.printed ++ t }

/-- Prints a text if the level shows messages of the given level. -/
def printAt (l : Log) (message : LogLevel) (t : Text) : Log := if l.level.shows message then l.print t else l

/-- Whether no error was counted. -/
def isClean (l : Log) : Bool := l.errorCount == 0

/-- Remembers a source for excerpts. -/
def addSource (l : Log) (path source : Text) : Log := { l with sources := l.sources.set path source }

/-- Counts and shows one diagnostic. -/
def diagnostic (l : Log) (d : Diagnostic) : Log :=
  let text := d.display ((l.sources.get? d.file).getD [])
  if d.isWarning then { l with warningCount := l.warningCount + 1 }.printAt .warning text
  else { l with errorCount := l.errorCount + 1 }.printAt .error text

/-- Counts and shows diagnostics in order. -/
def diagnostics (l : Log) (ds : List Diagnostic) : Log := ds.foldl diagnostic l

/-- Counts and shows an error. -/
def error (l : Log) (tag message : Text) : Log :=
  { l with errorCount := l.errorCount + 1 }.printAt .error (messageLine tag message)

/-- Counts and shows a warning. -/
def warning (l : Log) (tag message : Text) : Log :=
  { l with warningCount := l.warningCount + 1 }.printAt .warning (messageLine tag message)

/-- Shows progress. -/
def info (l : Log) (tag message : Text) : Log := l.printAt .verbose (messageLine tag message)

/-- The counts as they are shown at the end of a run. -/
def summaryText (l : Log) : Text :=
  "\n" ++ (if l.isClean then Text.ofString "Done" else Text.ofString "Failed") ++ " ("
    ++ counted l.errorCount "error" ++ ", " ++ counted l.warningCount "warning" ++ ")\n"

/-- Shows the counts. -/
def summary (l : Log) : Log := l.printAt .error l.summaryText

/-! ### Counts -/

@[simp]
theorem printAt_errorCount (l : Log) (m : LogLevel) (t : Text) : (l.printAt m t).errorCount = l.errorCount := by
  unfold printAt
  split <;> rfl

@[simp]
theorem info_errorCount (l : Log) (tag message : Text) : (l.info tag message).errorCount = l.errorCount := by
  simp [info]

@[simp]
theorem error_errorCount (l : Log) (tag message : Text) :
    (l.error tag message).errorCount = l.errorCount + 1 := by
  simp [error]

@[simp]
theorem warning_errorCount (l : Log) (tag message : Text) :
    (l.warning tag message).errorCount = l.errorCount := by
  simp [warning]

theorem diagnostic_errorCount (l : Log) (d : Diagnostic) :
    (l.diagnostic d).errorCount = l.errorCount + if d.isWarning then 0 else 1 := by
  unfold diagnostic
  cases d.isWarning <;> simp

theorem diagnostics_errorCount (l : Log) (ds : List Diagnostic) :
    (l.diagnostics ds).errorCount = l.errorCount + Diagnostic.countErrors ds := by
  induction ds generalizing l with
  | nil => rfl
  | cons d ds ih =>
    have h := ih (l.diagnostic d)
    simp only [diagnostics, List.foldl_cons] at h ⊢
    rw [h, diagnostic_errorCount]
    cases hd : d.isWarning
    · simp [Diagnostic.countErrors, hd]
      omega
    · simp [Diagnostic.countErrors, hd]

end Log

end MeaningForest

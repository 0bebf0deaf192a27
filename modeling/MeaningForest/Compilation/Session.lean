import MeaningForest.Analysis.Record
import MeaningForest.Compilation.Basic

/-!
# Sessions

A session compiles one file after the other with the same settings.  It keeps the tables and the symbols of the current
file.  When the next one is analysed, the symbols are released and the tables are emptied.
-/

namespace MeaningForest

/-- The state of a session. -/
structure Session where
  settings : Settings
  table : SymbolTable := {}
  /-- The tables of the current file. -/
  tables : Analysis := {}
  /-- The recorded analysis of the current file. -/
  current : Option Analysis.Recording := none
  deriving DecidableEq, Repr

namespace Session

variable [Language]

/-- The symbol of a meaning of the current file. -/
def meaning? (s : Session) (name : Text) : Option Symbol := s.current.bind (·.meanings.get? name)

/-- The symbols of a session once those of its current file are released. -/
def released (s : Session) : SymbolTable :=
  match s.current with
  | none => s.table
  | some r => s.table.release r.arena

/-- Makes a session ready for the next file: the symbols of the one before are released, and its tables are emptied. -/
def reset (s : Session) (f : DeclFile) : Session :=
  { s with table := s.released, tables := Analysis.start s.settings f, current := none }

/-- Fills the tables of a session and records the symbols. -/
def fill (s : Session) : Except Fault Session := do
  let tables ← s.tables.fill
  let r ← tables.record s.table
  return { s with table := r.table, tables, current := some r }

/-- Takes the next file. -/
def analyse (s : Session) (f : DeclFile) : Except Fault (Analysis × Session) := do
  let s ← (s.reset f).fill
  return (s.tables, s)

/-- Takes the next file and generates its code. -/
def generate (s : Session) (f : DeclFile) : Except Fault (Except Rejection Code.FileCode × Session) := do
  let (a, s) ← s.analyse f
  return (← a.generate s.settings, s)

end Session

end MeaningForest

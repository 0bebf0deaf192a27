import MeaningForest.Analysis.Basic
import MeaningForest.Symbol.Table

/-!
# Symbols of an analysis

An analysis is recorded in a symbol table: a symbol for each meaning, in the order of declaration, then the fields and
methods of each in order of depth.
-/

namespace MeaningForest.Analysis

/-- A table under construction, its arena, and the symbols of the meanings. -/
structure Recording where
  table : SymbolTable
  arena : Nat
  meanings : OrderedMap Text Symbol := {}
  deriving DecidableEq, Repr

namespace Recording

/-- The symbol of a meaning. -/
def symbol (r : Recording) (m : Text) : Symbol := (r.meanings.get? m).getD none

/-- Adds a meaning. -/
def addMeaning (r : Recording) (m : Text) : Recording :=
  let (s, t) := r.table.createMeaning r.arena m
  { r with table := t, meanings := r.meanings.set m s }

/-- Sets the parent of a meaning. -/
def addParent (f : Forest) (r : Recording) (m : Text) : Except Fault Recording := do
  match f.parent? m with
  | none => return r
  | some p => return { r with table := ← r.table.setInherits (r.symbol m) (r.symbol p) }

/-- Adds a meaning to the submeanings of its parent. -/
def addSubmeaning (f : Forest) (r : Recording) (m : Text) : Except Fault Recording := do
  match f.parent? m with
  | none => return r
  | some p => return { r with table := ← r.table.addSubmeaning (r.symbol p) (r.symbol m) }

/-- Adds a field of a meaning. -/
def addField (m : Text) (r : Recording) (d : FieldSlot) : Except Fault Recording := do
  let (s, t) := r.table.createField r.arena d
  return { r with table := ← t.setField (r.symbol m) d.name s }

/-- Adds a method of a meaning. -/
def addMethod (m : Text) (r : Recording) (f : Method) : Except Fault Recording := do
  let (s, t) ← r.table.createMethod r.arena f.name (r.symbol m) f.decl.doc
  return { r with table := ← t.setMethod (r.symbol m) f.name s }

/-- Adds an override to the method it overrides. -/
def addOverride (r : Recording) (o : Override) : Except Fault Recording := do
  let base := ((← r.table.meaning (r.symbol o.base.owner)).methods.get? o.base.name).getD none
  return { r with table := ← r.table.registerOverride base (o.path.map r.symbol) o.call.text }

/-- Adds the fields, methods and overrides of a meaning. -/
def addProfile (r : Recording) (p : Profile) : Except Fault Recording := do
  let r ← p.fields.foldlM (addField p.name) r
  let r ← p.methods.foldlM (addMethod p.name) r
  p.overrides.foldlM addOverride r

end Recording

/-- Records an analysis in a new arena of a table. -/
def record (a : Analysis) (t : SymbolTable) : Except Fault Recording := do
  let (arena, t) := t.openArena
  let names := a.forest.names
  let r := names.foldl Recording.addMeaning { table := t, arena }
  let r ← names.foldlM (Recording.addParent a.forest) r
  let r ← names.foldlM (Recording.addSubmeaning a.forest) r
  a.profiles.foldlM Recording.addProfile r

end MeaningForest.Analysis

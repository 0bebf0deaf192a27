import MeaningForest.Collections.Arena
import MeaningForest.Collections.OrderedMap
import MeaningForest.Effect
import MeaningForest.Symbol.OverrideTree

/-!
# Symbol tables

A symbol is a handle to what is known of a meaning, a field or a method.  Symbols are compared by identity, so that
two meanings with equal names stay apart.  A table has several arenas, each of which is released as a whole; the
operations refuse the empty symbol, symbols of a released arena and symbols of the wrong kind.
-/

namespace MeaningForest

/-- A symbol, or none. -/
abbrev Symbol := Option Handle

/-- What is known of a meaning. -/
structure MeaningSlot where
  name : Text
  inherits : Symbol := none
  submeanings : List Symbol := []
  methods : OrderedMap Text Symbol := {}
  fields : OrderedMap Text Symbol := {}
  deriving DecidableEq, Repr

/-- What is known of a field. -/
structure FieldSlot where
  name : Text
  isRef : Bool
  type : Text
  init : Text
  deriving DecidableEq, Repr

/-- What is known of a method. -/
structure MethodSlot where
  name : Text
  definedIn : Symbol
  doc : Text
  mapping : OverrideTree Symbol Text := .nil
  deriving DecidableEq, Repr

/-- What a symbol stands for. -/
inductive Slot where
  | meaning (data : MeaningSlot)
  | field (data : FieldSlot)
  | method (data : MethodSlot)
  deriving DecidableEq, Repr

namespace Slot

def kind : Slot → SymbolKind
  | meaning _ => .meaning
  | field _ => .field
  | method _ => .method

def name : Slot → Text
  | meaning d => d.name
  | field d => d.name
  | method d => d.name

/-- The kind and the name. -/
def describe (s : Slot) : Text := s.kind.word ++ " " ++ s.name

end Slot

/-- The arenas of a program; an arena's identity is its place. -/
structure SymbolTable where
  arenas : List (Arena Slot) := []
  deriving DecidableEq, Repr

namespace SymbolTable

/-! ### Arenas -/

/-- Opens a new arena. -/
def openArena (t : SymbolTable) : Nat × SymbolTable :=
  (t.arenas.length, ⟨t.arenas ++ [{ id := t.arenas.length }]⟩)

/-- The number of symbols of an arena. -/
def size (t : SymbolTable) (arena : Nat) : Nat := ((t.arenas[arena]?).map (·.size)).getD 0

/-- Releases all symbols of an arena. -/
def release (t : SymbolTable) (arena : Nat) : SymbolTable := ⟨t.arenas.modify arena (·.release)⟩

/-- Adds a symbol to an arena. -/
def allocate (t : SymbolTable) (arena : Nat) (s : Slot) : Symbol × SymbolTable :=
  match t.arenas[arena]? with
  | none => (none, t)
  | some a => (some (a.allocate s).1, ⟨t.arenas.set arena (a.allocate s).2⟩)

/-! ### Reading -/

/-- What a symbol stands for. -/
def slot (t : SymbolTable) (s : Symbol) : Except Fault Slot :=
  match s with
  | none => .error .zeroSymbol
  | some h =>
    match t.arenas[h.arena]? with
    | none => .error .foreignHandle
    | some a => a.read h

private def wrong {α : Type} (s : Slot) (expected : SymbolKind) : Except Fault α :=
  .error (.wrongKind s.name s.kind expected)

/-- The meaning that a symbol stands for. -/
def meaning (t : SymbolTable) (s : Symbol) : Except Fault MeaningSlot := do
  match ← t.slot s with
  | .meaning d => .ok d
  | other => wrong other .meaning

/-- The field that a symbol stands for. -/
def field (t : SymbolTable) (s : Symbol) : Except Fault FieldSlot := do
  match ← t.slot s with
  | .field d => .ok d
  | other => wrong other .field

/-- The method that a symbol stands for. -/
def method (t : SymbolTable) (s : Symbol) : Except Fault MethodSlot := do
  match ← t.slot s with
  | .method d => .ok d
  | other => wrong other .method

/-- Whether a symbol is there and of the given kind. -/
def hasKind (t : SymbolTable) (s : Symbol) (k : SymbolKind) : Except Fault Bool :=
  if s.isNone then .ok false else return (← t.slot s).kind == k

/-- The name of a symbol. -/
def name (t : SymbolTable) (s : Symbol) : Except Fault Text := return (← t.slot s).name

/-- The text of a symbol. -/
def describe (t : SymbolTable) (s : Symbol) : Except Fault Text :=
  if s.isNone then .ok "<none>" else return (← t.slot s).describe

/-- The text of a symbol inside a message; a symbol without a text is mentioned with the reason. -/
def mention (t : SymbolTable) (s : Symbol) : Text :=
  match t.describe s with
  | .ok text => text
  | .error f => "%!s(PANIC=String method: " ++ f.message ++ ")"

/-! ### Changing -/

/-- Replaces what a symbol stands for. -/
def put (t : SymbolTable) (s : Symbol) (new : Slot) : SymbolTable :=
  match s with
  | none => t
  | some h => ⟨t.arenas.modify h.arena fun a => { a with slots := a.slots.set h.index.toNat new }⟩

/-- Adds a meaning without a parent. -/
def createMeaning (t : SymbolTable) (arena : Nat) (name : Text) : Symbol × SymbolTable :=
  t.allocate arena (.meaning { name })

/-- Adds a field. -/
def createField (t : SymbolTable) (arena : Nat) (d : FieldSlot) : Symbol × SymbolTable :=
  t.allocate arena (.field d)

end SymbolTable

/-! ### Changes that can fail -/

namespace TableEdit

/-- Changes what is known of a meaning. -/
def modifyMeaning (s : Symbol) (f : MeaningSlot → MeaningSlot) : Effect SymbolTable Unit := do
  let d ← Effect.ask fun t => t.meaning s
  Effect.change fun t => t.put s (.meaning (f d))

/-- Adds a method of a meaning. -/
def createMethod (arena : Nat) (name : Text) (definedIn : Symbol) (doc : Text) : Effect SymbolTable Symbol := do
  let _ ← Effect.ask fun t => t.meaning definedIn
  Effect.update fun t => t.allocate arena (.method { name, definedIn, doc })

/-- Sets or removes the parent of a meaning. -/
def setInherits (s parent : Symbol) : Effect SymbolTable Unit := do
  let _ ← Effect.ask fun t => if parent.isSome then discard (t.meaning parent) else .ok ()
  modifyMeaning s fun d => { d with inherits := parent }

/-- Adds a submeaning of a meaning. -/
def addSubmeaning (s sub : Symbol) : Effect SymbolTable Unit :=
  modifyMeaning s fun d => { d with submeanings := d.submeanings ++ [sub] }

/-- Sets a field of a meaning under a name. -/
def setField (s : Symbol) (key : Text) (field : Symbol) : Effect SymbolTable Unit :=
  modifyMeaning s fun d => { d with fields := d.fields.set key field }

/-- Sets a method of a meaning under a name. -/
def setMethod (s : Symbol) (key : Text) (method : Symbol) : Effect SymbolTable Unit :=
  modifyMeaning s fun d => { d with methods := d.methods.set key method }

/-- Registers the code of an override at the end of a path of meanings. -/
def registerOverride (method : Symbol) (path : List Symbol) (code : Text) : Effect SymbolTable Unit :=
  match path with
  | [] => Effect.ask fun _ => .error .emptyOverridePath
  | k :: path => do
    let d ← Effect.ask fun t => t.method method
    Effect.change fun t => t.put method (.method { d with mapping := d.mapping.register code k path })

theorem atomic_modifyMeaning (s : Symbol) (f : MeaningSlot → MeaningSlot) : (modifyMeaning s f).Atomic :=
  Effect.Atomic.ask_bind fun _ => Effect.atomic_update _

theorem atomic_createMethod (arena : Nat) (name : Text) (definedIn : Symbol) (doc : Text) :
    (createMethod arena name definedIn doc).Atomic :=
  Effect.Atomic.ask_bind fun _ => Effect.atomic_update _

theorem atomic_setInherits (s parent : Symbol) : (setInherits s parent).Atomic :=
  Effect.Atomic.ask_bind fun _ => atomic_modifyMeaning s _

theorem atomic_registerOverride (method : Symbol) (path : List Symbol) (code : Text) :
    (registerOverride method path code).Atomic := by
  cases path with
  | nil => exact Effect.atomic_ask _
  | cons k path => exact Effect.Atomic.ask_bind fun _ => Effect.atomic_update _

end TableEdit

namespace SymbolTable

/-- Changes what is known of a meaning. -/
def modifyMeaning (t : SymbolTable) (s : Symbol) (f : MeaningSlot → MeaningSlot) : Except Fault SymbolTable :=
  (TableEdit.modifyMeaning s f).outcome t

/-- Adds a method of a meaning. -/
def createMethod (t : SymbolTable) (arena : Nat) (name : Text) (definedIn : Symbol) (doc : Text) :
    Except Fault (Symbol × SymbolTable) := (TableEdit.createMethod arena name definedIn doc).result t

/-- Sets or removes the parent of a meaning. -/
def setInherits (t : SymbolTable) (s parent : Symbol) : Except Fault SymbolTable :=
  (TableEdit.setInherits s parent).outcome t

/-- Adds a submeaning of a meaning. -/
def addSubmeaning (t : SymbolTable) (s sub : Symbol) : Except Fault SymbolTable :=
  (TableEdit.addSubmeaning s sub).outcome t

/-- Sets a field of a meaning under a name. -/
def setField (t : SymbolTable) (s : Symbol) (key : Text) (field : Symbol) : Except Fault SymbolTable :=
  (TableEdit.setField s key field).outcome t

/-- Sets a method of a meaning under a name. -/
def setMethod (t : SymbolTable) (s : Symbol) (key : Text) (method : Symbol) : Except Fault SymbolTable :=
  (TableEdit.setMethod s key method).outcome t

/-- Registers the code of an override at the end of a path of meanings. -/
def registerOverride (t : SymbolTable) (method : Symbol) (path : List Symbol) (code : Text) :
    Except Fault SymbolTable := (TableEdit.registerOverride method path code).outcome t

theorem modifyMeaning_def (t : SymbolTable) (s : Symbol) (f : MeaningSlot → MeaningSlot) :
    t.modifyMeaning s f = (do return t.put s (.meaning (f (← t.meaning s)))) := by
  rw [modifyMeaning, TableEdit.modifyMeaning, Effect.outcome, Effect.result_bind, Effect.result_ask]
  cases t.meaning s <;> rfl

theorem createMethod_def (t : SymbolTable) (arena : Nat) (name : Text) (definedIn : Symbol) (doc : Text) :
    t.createMethod arena name definedIn doc = (do
      discard (t.meaning definedIn)
      return t.allocate arena (.method { name, definedIn, doc })) := by
  rw [createMethod, TableEdit.createMethod, Effect.result_bind, Effect.result_ask]
  cases t.meaning definedIn <;> rfl

theorem setInherits_def (t : SymbolTable) (s parent : Symbol) : t.setInherits s parent = (do
    if parent.isSome then discard (t.meaning parent)
    t.modifyMeaning s fun d => { d with inherits := parent }) := by
  rw [setInherits, TableEdit.setInherits, Effect.outcome, Effect.result_bind, Effect.result_ask]
  cases parent with
  | none => rfl
  | some p => cases h : t.meaning (some p) <;> rfl

theorem registerOverride_cons (t : SymbolTable) (method k : Symbol) (path : List Symbol) (code : Text) :
    t.registerOverride method (k :: path) code = (do
      let d ← t.method method
      return t.put method (.method { d with mapping := d.mapping.register code k path })) := by
  rw [registerOverride, TableEdit.registerOverride, Effect.outcome, Effect.result_bind, Effect.result_ask]
  cases t.method method <;> rfl

end SymbolTable

end MeaningForest

import MeaningForest.Settings.Basic
import MeaningForest.Text.Quoted
import MeaningForest.Toml.Document

/-!
# Settings documents

Settings are given by a TOML document with the tables `project` and `output`.  Names of tables and settings are matched
without regard to case.  A setting that is left out or empty has its default.

* `Settings.ofDocument?_empty`: a document without definitions gives the default settings.
-/

namespace MeaningForest.Settings

/-! ### Names without case -/

/-- The small letter of an ASCII capital, and of the two other characters that fold to an ASCII letter. -/
private def foldScalar (c : Nat) : Nat :=
  if 0x41 ≤ c ∧ c ≤ 0x5a then c + 0x20
  else if c = 0x17f then 0x73
  else if c = 0x212a then 0x6b
  else c

/-- Whether a text is an ASCII name, up to case. -/
def isNamed (t name : Text) : Bool := Text.ofScalars ((Text.scalars t).map foldScalar) == name

/-! ### Known settings -/

/-- A setting of a settings document. -/
structure Item where
  table : Text
  name : Text
  /-- Puts a value into the settings, if it is of the right kind. -/
  put : Toml.Value → Settings → Option Settings

/-- A setting whose value is a text. -/
private def textItem (table name : Text) (put : Text → Settings → Settings) : Item :=
  ⟨table, name, fun v s => match v with
    | .text t => some (put t s)
    | _ => none⟩

/-- A setting whose value is a truth value. -/
private def flagItem (table name : Text) (put : Bool → Settings → Settings) : Item :=
  ⟨table, name, fun v s => match v with
    | .flag b => some (put b s)
    | _ => none⟩

/-- All settings. -/
def items : List Item :=
  [textItem "project" "package" fun t s => { s with package := t },
    textItem "project" "arena" fun t s => { s with arena := t },
    textItem "project" "runtime" fun t s => { s with runtime := t },
    textItem "output" "dir" fun t s => { s with dir := t },
    textItem "output" "suffix" fun t s => { s with suffix := t },
    flagItem "output" "fix_imports" fun b s => { s with fixImports := b }]

/-- The setting of a name in a table. -/
private def item? (table name : Text) : Option Item :=
  items.find? fun i => isNamed table i.table && isNamed name i.name

/-- Whether a name is that of a table of settings. -/
private def isTable (name : Text) : Bool := items.any fun i => isNamed name i.table

/-- Whether a key is that of a setting or of a table of settings. -/
def isKnown : Toml.Key → Bool
  | [table] => isTable table
  | [table, name] => (item? table name).isSome
  | _ => false

/-! ### Decoding -/

/-- Takes one definition of a table of settings. -/
private def decodeItem (table : Text) (s : Settings) : Text × Toml.Node → Option Settings
  | (name, node) =>
    match item? table name, node with
    | none, _ => some s
    | some i, .value v => i.put v s
    | some _, _ => none

/-- Takes one definition at the top of a document. -/
private def decodeTable (d : Toml.Document) (s : Settings) : Text × Toml.Node → Option Settings
  | (name, node) =>
    if !isTable name then some s
    else match node with
      | .table => (d.below [name]).foldlM (decodeItem name) s
      | _ => none

/-- The settings with defaults in place of empty texts; the output directory can be empty. -/
def withDefaults (s : Settings) : Settings :=
  let default : Settings := {}
  { s with
    package := if s.package.isEmpty then default.package else s.package
    arena := if s.arena.isEmpty then default.arena else s.arena
    runtime := if s.runtime.isEmpty then default.runtime else s.runtime
    suffix := if s.suffix.isEmpty then default.suffix else s.suffix }

/-- The settings of a document, or nothing if a value is of the wrong kind.  Unknown keys are ignored here. -/
def ofDocument? (d : Toml.Document) : Option Settings :=
  ((d.below []).foldlM (decodeTable d) {}).map withDefaults

/-- The first key of a document that is no setting. -/
def unknownKey? (d : Toml.Document) : Option Toml.Key := d.order.find? (!isKnown ·)

theorem ofDocument?_empty : ofDocument? {} = some {} := by decide

end MeaningForest.Settings

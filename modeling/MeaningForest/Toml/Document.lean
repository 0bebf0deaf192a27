import MeaningForest.Collections.OrderedMap
import MeaningForest.Toml.Reader

/-!
# Definitions of TOML documents

The statements of a document define tables and values.  A key is defined once; a table that was only implied, by a key
that goes through it, can be named by one header later on.  The entries of a list of tables are those of its last table.
-/

namespace MeaningForest.Toml

/-- What a key stands for. -/
inductive Node where
  | table
  /-- A list of tables. -/
  | tables
  | value (v : Value)

/-- Whether keys can go through a node. -/
def Node.isOpen : Node → Bool
  | .value _ => false
  | _ => true

/-- The definitions of a document. -/
structure Document where
  nodes : OrderedMap Key Node := {}
  /-- Tables that can still be named. -/
  implied : List Key := []
  /-- Keys whose last value was an array. -/
  arrays : List Key := []
  /-- The keys of headers and entries as they occur. -/
  order : List Key := []

namespace Document

/-- Allows a key to be named once more. -/
private def imply (d : Document) (key : Key) : Document := { d with implied := key :: d.implied.filter (· != key) }

/-- The definitions without those below a key. -/
private def clearBelow (d : Document) (key : Key) : Document :=
  { d with nodes := ⟨d.nodes.entries.filter fun (k, _) => !(key.isPrefixOf k && k != key)⟩ }

/-- Whether every key on the way to a key is a table. -/
private def isReachable (d : Document) (key : Key) : Bool :=
  (List.range key.length).all fun n => n == 0 || ((d.nodes.get? (key.take n)).map Node.isOpen).getD false

/-- Defines a key.  A key that is already defined must be implied; it keeps its node unless it was an array. -/
private def define (d : Document) (key : Key) (node : Node) : Option Document :=
  if !d.isReachable key then none
  else if !d.nodes.has key then some { d with nodes := d.nodes.set key node }
  else if !d.implied.contains key then none
  else
    let d := { d with implied := d.implied.filter (· != key) }
    if !d.arrays.contains key then some d
    else
      let d := if node.isOpen then d else d.clearBelow key
      some { d with nodes := d.nodes.set key node }

/-- Implies the tables on the way to a key that are not defined. -/
private def implyAbove (d : Document) (key : Key) : Document :=
  (List.range key.length).foldl (fun d n =>
    if n = 0 ∨ d.nodes.has (key.take n) then d
    else { d.imply (key.take n) with nodes := d.nodes.set (key.take n) .table }) d

/-- Begins a table. -/
private def openTable (d : Document) (key : Key) : Option Document := (d.implyAbove key).define key .table

/-- Begins a further table of a list of tables. -/
private def openTables (d : Document) (key : Key) : Option Document :=
  let d := d.implyAbove key
  if !d.isReachable key then none
  else match d.nodes.get? key with
    | none => some { d with nodes := d.nodes.set key .tables }
    | some .tables => some (d.clearBelow key)
    | some _ => none

/-- Remembers whether the value of a key is an array. -/
private def noteValue (d : Document) (key : Key) (isArray : Bool) : Document :=
  let others := d.arrays.filter (· != key)
  { d with arrays := if isArray then key :: others else others }

/-- Begins the tables that a dotted key goes through, from a table on. -/
private def openParts (d : Document) (table key : Key) : Option Document :=
  (List.range key.length).foldlM (fun d n =>
    if n = 0 then some d else (d.imply (table ++ key.take n)).openTable (table ++ key.take n)) d

/-- Whether a value is an array. -/
private def isArray : Value → Bool
  | .array _ => true
  | _ => false

/-- The node of a value. -/
private def nodeOf : Value → Node
  | .table _ => .table
  | v => .value v

mutual

/-- Defines what is inside the value of a key.  A table inside an array is one of a list of tables. -/
private def enter (d : Document) (key : Key) (inArray : Bool) : Value → Option Document
  | .array items => enterItems (d.noteValue key true) key items
  | .table entries => do
    let d := d.imply key
    let d ← if inArray then d.openTables key else d.openTable key
    enterEntries d key entries
  | _ => some d

/-- Defines what is inside the items of an array. -/
private def enterItems (d : Document) (key : Key) : Items → Option Document
  | .nil => some d
  | .cons item rest => do
    let d ← enter d key true item
    enterItems d key rest

/-- Defines the entries of a table. -/
private def enterEntries (d : Document) (table : Key) : Entries → Option Document
  | .nil => some d
  | .cons key value rest => do
    let d ← d.openParts table key
    let d := { d with order := d.order ++ [table ++ key] }
    let d ← enter d (table ++ key) false value
    let d ← d.define (table ++ key) (nodeOf value)
    enterEntries (d.noteValue (table ++ key) (isArray value)) table rest

end

/-- Adds a statement to the definitions; the key is that of the last header. -/
private def add (s : Document × Key) : Statement → Option (Document × Key)
  | .table key => do
    let d ← s.1.openTable key
    return ({ d.noteValue key false with order := d.order ++ [key] }, key)
  | .tables key => do
    let d ← s.1.openTables key
    return ({ d.noteValue key false with order := d.order ++ [key] }, key)
  | .entry key value => do
    let d ← enterEntries s.1 s.2 (.cons key value .nil)
    return (d, s.2)

/-- The definitions of a document, or nothing if it is malformed. -/
def read? (t : Text) : Option Document := do
  let (d, _) ← (← Toml.read? t).foldlM add (({} : Document), [])
  return d

/-- The definitions directly below a key. -/
def below (d : Document) (key : Key) : List (Text × Node) :=
  d.nodes.entries.filterMap fun (k, node) =>
    match k.getLast? with
    | some name => if k.dropLast == key then some (name, node) else none
    | none => none

end Document

end MeaningForest.Toml

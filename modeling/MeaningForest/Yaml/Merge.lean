import MeaningForest.Yaml.Decode

/-!
# Mappings that others are merged into

A record takes the entries of a mapping whose keys it knows.  Further entries can be merged in from other mappings, but
do not replace its own: for that, the keys of the mapping are decoded without a type.
-/

namespace MeaningForest.Yaml

/-! ### Values without a type -/

/-- What a node stands for where no type is wanted.  Of the values in collections only the wording is kept. -/
inductive FreeValue where
  | scalar (value : ScalarValue)
  | list (items : List Text)
  /-- A mapping; all its keys can be texts. -/
  | mapping (isTexts : Bool) (entries : List (ScalarValue × Text))
  deriving DecidableEq, Repr

namespace FreeValue

/-- How a scalar is worded. -/
def showScalar : ScalarValue → Text
  | .null => "interface \x7b\x7d(nil)"
  | .bool b => if b then "true" else "false"
  | .int n => Text.ofInt n
  | .float t => t
  | .timestamp t => t
  | .str t => t.quote

/-- The type of a collection. -/
def collectionType? : FreeValue → Option Text
  | scalar _ => none
  | list _ => some "[]interface \x7b\x7d"
  | mapping true _ => some "map[string]interface \x7b\x7d"
  | mapping false _ => some "map[interface \x7b\x7d]interface \x7b\x7d"

/-- How a value is worded; texts as keys are in order. -/
def shown (v : FreeValue) : Text :=
  let type := v.collectionType?.getD []
  match v with
  | scalar value => showScalar value
  | list items => type ++ "\x7b" ++ Text.join ", " items ++ "\x7d"
  | mapping _ entries =>
    let parts := entries.map fun (k, e) => showScalar k ++ ":" ++ e
    type ++ "\x7b" ++ Text.join ", " (parts.mergeSort fun a b => !(b < a : Bool)) ++ "\x7d"

end FreeValue

namespace Decode

/-- Whether a node is the key of merged entries. -/
def isMergeKey : Node → Bool
  | .scalar tag text _ => text == Text.ofString "<<" && tag == mergeTag
  | _ => false

/-- The entries of a mapping that are its own, and what is merged into it. -/
def splitMerge (entries : List (Node × Node)) : List (Node × Node) × Option Node :=
  (entries.filter (!isMergeKey ·.1), ((entries.filter (isMergeKey ·.1)).getLast?).map Prod.snd)

/-- Takes a key while entries are merged in; says whether it was free. -/
def takeKey (key : ScalarValue) (taken : Option (List ScalarValue)) : Option (List ScalarValue) × Bool :=
  match taken with
  | none => (none, true)
  | some keys => if keys.contains key then (some keys, false) else (some (key :: keys), true)

/-- Whether a node is a mapping, or an alias of one. -/
def isMapping (n : Node) : Decode Bool := do
  match n, ← target? n with
  | .mapping .., _ => return true
  | _, some (.mapping ..) => return true
  | _, _ => return false

/-- The keys of a mapping that others are merged into are all taken. -/
def takeKeys (free : Node → Decode (Option FreeValue)) (keys : List Node) : Decode Unit := do
  modify fun s => { s with taken := some [] }
  keys.forM fun k => do
    match ← free k with
    | none => return
    | some (.scalar v) => modify fun s => { s with taken := (takeKey v s.taken).1 }
    | some v => throw (.collectionKey (v.collectionType?.getD []))

/-- Merges mappings into a value: one, or those of a sequence in order.  `keys` are the keys of the mapping that they
are merged into, `into` takes the entries of one of them and `free` decodes a key without a type. -/
def merge {σ : Type} (free : Node → Decode (Option FreeValue)) (into : Node → σ → Decode σ) (keys : List Node)
    (source : Node) (value : σ) : Decode σ := do
  let outer := (← get).taken
  if outer.isNone then takeKeys free keys
  let one := fun (value : σ) (n : Node) => do
    if !(← isMapping n) then throw .mergedOther
    into n value
  let value ← match source with
    | .sequence _ items _ => items.foldlM one value
    | n => one value n
  if outer.isNone then modify fun s => { s with taken := none }
  return value

/-- Whether all keys of a mapping can be texts. -/
def hasTextKeys (entries : List (Node × Node)) : Decode Bool := do
  let tags ← entries.mapM fun e => return ((← target? e.1).getD e.1).tag
  return tags.all fun t => t == strTag || t == mergeTag

/-- Takes an entry of a mapping without a type.  `acc` has the keys that are taken, and the entries so far. -/
def takeFreeEntry (free : Node → Decode (Option FreeValue)) (isTexts : Bool)
    (acc : Option (List ScalarValue) × List (ScalarValue × Text)) (entry : Node × Node) :
    Decode (Option (List ScalarValue) × List (ScalarValue × Text)) := do
  let textKey := fun (n : Node) => do return (← text? "string" n).map fun t => FreeValue.scalar (.str t)
  match ← if isTexts then textKey entry.1 else free entry.1 with
  | none => return acc
  | some (.scalar k) =>
    let (taken, isFree) := takeKey k acc.1
    if !isFree then return acc
    match ← free entry.2 with
    | none => return (taken, acc.2)
    | some v => return (taken, acc.2.filter (·.1 != k) ++ [(k, v.shown)])
  | some v =>
    if acc.1.isSome then throw (.mergedCollectionKey (v.collectionType?.getD []))
    throw (.collectionAsKey v.shown)

/-- Decodes a node without a type; `into` is a mapping that its entries are merged into.  Nothing is decoded from a
mapping that has a key twice. -/
def free : (fuel : Nat) → (into : Option (Bool × List (ScalarValue × Text))) → Node → Decode (Option FreeValue)
  | 0, _ => fun _ => throw .tooManyAliases
  | fuel + 1, into => followed fun n => do
    match n with
    | .scalar tag text _ => return some (.scalar (← scalarValue tag text))
    | .sequence _ items _ =>
      let values ← items.mapM (free fuel none)
      return some (.list (values.filterMap (·.map FreeValue.shown)))
    | .mapping _ entries _ =>
      if !(← checkKeys entries) then return none
      let (isTexts, start) ← match into with
        | some m => pure m
        | none => do pure (← hasTextKeys entries, [])
      let (own, source) := splitMerge entries
      let outer := (← get).taken
      modify fun s => { s with taken := none }
      let (taken, values) ← own.foldlM (takeFreeEntry (free fuel none) isTexts) (outer, start)
      modify fun s => { s with taken }
      let take := fun (n : Node) (values : List (ScalarValue × Text)) => do
        match ← free fuel (some (isTexts, values)) n with
        | some (.mapping _ values) => return values
        | _ => return values
      let values ← match source with
        | none => pure values
        | some source => merge (free fuel none) take (entries.map Prod.fst) source values
      return some (.mapping isTexts values)
    | .reference .. => return none

/-! ### Records -/

/-- How mappings are decoded into a record. -/
structure RecordType (σ : Type) where
  /-- What notes call the type. -/
  name : Text
  keys : List Text
  /-- Sets the value of a key. -/
  set : Text → Node → σ → Decode σ
  /-- Notes where the record comes from. -/
  placed : Node → σ → σ := fun _ v => v

namespace RecordType

variable {σ : Type}

/-- What notes call the type of a record that is decoded afresh. -/
def entryName : Text := "schema.plain"

/-- Takes an entry of a mapping into a record.  `acc` has the keys that are taken, the keys that the mapping has set,
and the record so far. -/
def takeEntry (r : RecordType σ) (name : Text) (acc : Option (List ScalarValue) × List Text × σ)
    (entry : Node × Node) : Decode (Option (List ScalarValue) × List Text × σ) := do
  let (taken, done, value) := acc
  match ← text? "string" entry.1 with
  | none => return acc
  | some key =>
    let (taken, isFree) := takeKey (.str key) taken
    if !isFree then return acc
    if !r.keys.contains key then return (taken, done, value)
    if done.contains key then
      note entry.1.place.line ("field " ++ key ++ " already set in type " ++ name)
      return (taken, done, value)
    return (taken, key :: done, ← r.set key entry.2 value)

/-- Takes the entries of a mapping into a record, then those merged in.  `name` is what notes call the type; with
`reenters`, a merged mapping is decoded afresh like an entry of its own. -/
def fill (r : RecordType σ) :
    (fuel : Nat) → (name : Text) → (reenters : Bool) → List (Node × Node) → σ → Decode σ
  | 0, _, _, _, _ => throw .tooManyAliases
  | fuel + 1, name, reenters, entries, value => do
    if !(← checkKeys entries) then return value
    let (own, source) := splitMerge entries
    let outer := (← get).taken
    modify fun s => { s with taken := none }
    let (taken, _, value) ← own.foldlM (r.takeEntry name) (outer, [], value)
    modify fun s => { s with taken }
    match source with
    | none => return value
    | some source =>
      let into := fun (n : Node) (value : σ) => followed (fun n => do
        match n with
        | .mapping tag entries _ =>
          if reenters && tag != nullTag then
            afresh (do return r.placed n (← r.fill fuel entryName false entries value))
          else r.fill fuel name reenters entries value
        | _ => return value) n
      merge (free fuel none) into (entries.map Prod.fst) source value

/-- Decodes what is no mapping into a record, which leaves nothing. -/
def refuse (name : Text) (n : Node) : Decode Unit := do
  match n with
  | .scalar tag text _ => if (← scalarValue tag text) ≠ .null then misfit n name
  | n => misfit n name

/-- Decodes a node into a record. -/
def record (r : RecordType σ) (start : σ) : Node → Decode σ :=
  followed fun n => do
    match n with
    | .mapping _ entries _ => r.fill (← room) r.name false entries start
    | n =>
      refuse r.name n
      return start

/-- Decodes an entry into a record, unless it is null.  A mapping with the tag of null is decoded in place. -/
def entry? (r : RecordType σ) (start : σ) (n : Node) : Decode (Option σ) := do
  match n with
  | .mapping tag entries _ =>
    if tag == nullTag then return some (← r.fill (← room) r.name true entries start)
    afresh (do return some (r.placed n (← r.fill (← room) entryName false entries start)))
  | n =>
    if n.tag = nullTag then refuse r.name n else afresh (refuse entryName n)
    return none

end RecordType

end Decode

end MeaningForest.Yaml

import MeaningForest.Text.Base64
import MeaningForest.Text.Quoted
import MeaningForest.Yaml.Node

/-!
# Values from YAML nodes

A node is decoded into texts, truth values, lists and records.  A node that does not fit is noted and decoding goes on,
so that all misfits of a document are found; null stands for an absent value everywhere.  A document that makes no
sense, or that grows out of proportion where its aliases are followed, is given up.

* `Yaml.Decode.afresh_notes`: what is decoded on its own leaves only its notes behind.
-/

namespace MeaningForest.Yaml

/-- Why a document is given up. -/
inductive DecodeFault where
  /-- A text does not have the form of its tag, but that of another one. -/
  | wrongForm (found text tag : Text)
  /-- An alias is part of what it stands for. -/
  | endlessAlias (name : Text)
  /-- Nearly everything is decoded through aliases. -/
  | tooManyAliases
  /-- What is merged into a mapping is no mapping. -/
  | mergedOther
  | badBase64
  /-- A collection is a key of a mapping that is itself part of a key. -/
  | collectionAsKey (shown : Text)
  /-- A collection is a key of a mapping that is merged into another one. -/
  | mergedCollectionKey (type : Text)
  /-- A collection is a key of a mapping that others are merged into. -/
  | collectionKey (type : Text)
  deriving DecidableEq, Repr

/-- The wording for keys that cannot be compared. -/
def uncomparable (type : Text) : Text := "runtime error: hash of unhashable type " ++ type

/-- The wording of a fault. -/
def DecodeFault.message : DecodeFault → Text
  | wrongForm found text tag => "cannot decode " ++ found ++ " \x60" ++ text ++ "\x60 as a " ++ tag
  | endlessAlias name => "anchor '" ++ name ++ "' value contains itself"
  | tooManyAliases => "document contains excessive aliasing"
  | mergedOther => "map merge requires map or sequence of maps as the value"
  | badBase64 => "!!binary value contains invalid base64 data"
  | collectionAsKey shown => "invalid map key: " ++ shown
  | mergedCollectionKey type => uncomparable type
  | collectionKey type => uncomparable type

/-- The state of decoding. -/
structure DecodeState where
  /-- The notes so far, in order. -/
  notes : List Text := []
  /-- The number of nodes decoded so far. -/
  visits : Nat := 0
  /-- How many of them belong to what aliases stand for. -/
  aliased : Nat := 0
  /-- The places of the aliases that are followed now. -/
  followed : List Position := []
  /-- While entries are merged in: the keys that are taken. -/
  taken : Option (List ScalarValue) := none
  deriving DecidableEq, Repr

/-- Whether too much of a document is decoded through aliases.  Small documents may come from aliases up to 99 in a
hundred; from 400000 nodes on that falls evenly, to 10 in a hundred at 4000000. -/
def DecodeState.isExcessive (s : DecodeState) : Bool :=
  100 < s.aliased && 1000 < s.visits &&
    (let low := 400000
     let range := 3600000
     let beyond := min (s.visits - low) range
     s.visits * (99 * range - 89 * beyond) < s.aliased * (100 * range))

/-- A step of decoding. -/
abbrev Decode := ReaderT Document (StateT DecodeState (Except DecodeFault))

namespace Decode

/-! ### Notes -/

/-- Adds a note on a line. -/
def note (line : Nat) (text : Text) : Decode Unit :=
  modify fun s => { s with notes := s.notes ++ ["line " ++ Text.ofNat line ++ ": " ++ text] }

/-- A value in a note, cut if it is long. -/
def excerpt (t : Text) : Text := " \x60" ++ (if 10 < t.length then t.take 7 ++ Text.ofString "..." else t) ++ "\x60"

/-- Notes that a node does not fit a type.  With the tag of a collection, a text stands there as it is. -/
def misfit (n : Node) (type : Text) : Decode Unit :=
  let text := match n with
    | .scalar _ text _ => text
    | _ => []
  let value := if n.tag = seqTag ∨ n.tag = mapTag then text else excerpt text
  note n.place.line ("cannot unmarshal " ++ n.tag ++ value ++ " into " ++ type)

/-- Notes the keys that a mapping has more than once; says whether there are none. -/
def checkKeys (entries : List (Node × Node)) : Decode Bool := do
  let same := fun (a b : Node) =>
    a.text == b.text && match a, b with
      | .scalar .., .scalar .. | .sequence .., .sequence .. => true
      | .mapping .., .mapping .. | .reference .., .reference .. => true
      | _, _ => false
  let rec go : List Node → Decode Bool
    | [] => return true
    | k :: later => do
      let again := later.filter (same k)
      again.forM fun j => note j.place.line
        ("mapping key " ++ j.text.quote ++ " already defined at line " ++ Text.ofNat k.place.line)
      return (← go later) && again.isEmpty
  go (entries.map Prod.fst)

/-- Notes that a collection does not fit a type, unless it has a key twice. -/
def misfitCollection (n : Node) (type : Text) : Decode Unit := do
  match n with
  | .mapping _ entries _ => if ← checkKeys entries then misfit n type
  | _ => misfit n type

/-! ### Nodes and aliases -/

/-- Counts a node. -/
def visit : Decode Unit := do
  modify fun s => { s with
    visits := s.visits + 1
    aliased := if s.followed.isEmpty then s.aliased else s.aliased + 1 }
  if (← get).isExcessive then throw .tooManyAliases

/-- The node that an alias stands for. -/
def target? (n : Node) : Decode (Option Node) := do
  match n with
  | .reference _ number _ => return (← read).anchored.lookup number
  | _ => return none

/-- Decodes a node, or what it stands for. -/
def followed {α : Type} (decode : Node → Decode α) (n : Node) : Decode α := do
  visit
  match n with
  | .reference name _ place =>
    if (← get).followed.contains place then throw (.endlessAlias name)
    match ← target? n with
    | none => throw (.endlessAlias name)
    | some n =>
      modify fun s => { s with followed := place :: s.followed }
      visit
      let a ← decode n
      modify fun s => { s with followed := s.followed.tail }
      return a
  | n => decode n

/-- Decodes on its own: nothing is counted yet, no alias is followed and no key is taken. -/
def afresh {α : Type} (decode : Decode α) : Decode α := fun doc s =>
  match (do visit; decode) doc { notes := s.notes } with
  | .ok (a, t) => .ok (a, { s with notes := t.notes })
  | .error f => .error f

theorem afresh_notes {α : Type} (decode : Decode α) (doc : Document) (s t : DecodeState) (a : α)
    (h : afresh decode doc s = .ok (a, t)) : t = { s with notes := t.notes } := by
  simp only [afresh] at h
  split at h
  · simp only [Except.ok.injEq, Prod.mk.injEq] at h
    rw [← h.2]
  · simp at h

/-- More steps than following aliases into each other can take. -/
def room : Decode Nat := return ((← read).size + 1) * ((← read).size + 1)

/-! ### Scalars -/

/-- What a scalar stands for. -/
def scalarValue (tag text : Text) : Decode ScalarValue := do
  match ScalarValue.ofTagged tag text with
  | .error found => throw (.wrongForm found text tag)
  | .ok value =>
    if tag != binaryTag then return value
    match Text.ofBase64? text with
    | some bytes => return .str bytes
    | none => throw .badBase64

/-- The text of a scalar, whatever its tag; nothing for null.  `nullable` is what notes call the type of a text that
can be null. -/
def text? (nullable : Text) : Node → Decode (Option Text) :=
  followed fun n => do
    match n with
    | .scalar tag text _ =>
      match ← scalarValue tag text with
      | .null => return none
      | .str bytes => return some bytes
      | _ => return some text
    | n =>
      misfitCollection n (if n.tag = nullTag then nullable else "string")
      return none

/-- A truth value, or nothing. -/
def bool? : Node → Decode (Option Bool) :=
  followed fun n => do
    match n with
    | .scalar tag text _ =>
      match ← scalarValue tag text with
      | .null => return none
      | .bool b => return some b
      | .str t =>
        if isYes t then return some true
        else if isNo t then return some false
        else
          misfit n "bool"
          return none
      | _ =>
        misfit n "bool"
        return none
    | n =>
      misfitCollection n "bool"
      return none

/-- The items of a sequence; items that decode to nothing are left out. -/
def list {α : Type} (type : Text) (item : Node → Decode (Option α)) : Node → Decode (List α) :=
  followed fun n => do
    match n with
    | .sequence _ items _ =>
      let values ← items.mapM item
      return values.filterMap id
    | .scalar tag text _ =>
      if (← scalarValue tag text) ≠ .null then misfit n type
      return []
    | n =>
      misfitCollection n type
      return []

end Decode

end MeaningForest.Yaml

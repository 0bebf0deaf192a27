import MeaningForest.Token.Basic
import MeaningForest.Yaml.Scan
import MeaningForest.Yaml.Tag

/-!
# Nodes of YAML documents

A document is a tree of scalars, sequences and mappings.  A node with an anchor can be referred to by aliases, also
from inside itself, so an alias holds the number of the anchored node and the document has a table of those.
-/

namespace MeaningForest.Yaml

/-- A node of a document.  Tags are in their short form. -/
inductive Node where
  | scalar (tag text : Text) (place : Position)
  | sequence (tag : Text) (items : List Node) (place : Position)
  | mapping (tag : Text) (entries : List (Node × Node)) (place : Position)
  | reference (name : Text) (target : Nat) (place : Position)
  deriving Repr

namespace Node

/-- Where a node starts. -/
def place : Node → Position
  | scalar _ _ p => p
  | sequence _ _ p => p
  | mapping _ _ p => p
  | reference _ _ p => p

/-- The tag of a node; an alias has none. -/
def tag : Node → Text
  | scalar t _ _ => t
  | sequence t _ _ => t
  | mapping t _ _ => t
  | reference _ _ _ => []

/-- The text of a scalar or the name of an alias; other nodes have none. -/
def text : Node → Text
  | scalar _ t _ => t
  | reference name _ _ => name
  | _ => []

end Node

/-- A document: its root, and the nodes with anchors. -/
structure Document where
  root : Node
  anchored : List (Nat × Node) := []
  /-- The number of its tokens; it has no more nodes. -/
  size : Nat := 0
  deriving Repr

/-- The state of composing nodes from tokens. -/
structure Composer where
  tokens : List Token
  /-- What the handles of tags stand for. -/
  leaders : List (Text × Text) := []
  /-- The number of the node that an anchor names last. -/
  anchors : List (Text × Nat) := []
  anchored : List (Nat × Node) := []
  deriving Repr

/-- A step of composing; it fails on tokens in the wrong order. -/
abbrev Compose := StateT Composer Option

namespace Compose

/-- The next token. -/
def peek : Compose Token := do
  match (← get).tokens with
  | t :: _ => return t
  | [] => failure

/-- Moves over the next token. -/
def skip : Compose Unit := modify fun s => { s with tokens := s.tokens.tail }

/-- Whether the next token is of one of some kinds. -/
def isNext (kinds : List TokenKind) : Compose Bool := return kinds.contains (← peek).kind

/-- The position of a mark. -/
def position (m : Mark) : Position := ⟨m.line + 1, m.column + 1⟩

/-- A scalar that is not there. -/
def empty (m : Mark) : Node := .scalar nullTag [] (position m)

/-- The tag that a handle and a suffix stand for. -/
def resolveTag (handle suffix : Text) : Compose Text := do
  if handle.isEmpty then return suffix
  match (← get).leaders.lookup handle with
  | some leader => if (leader ++ suffix).isEmpty then failure else return leader ++ suffix
  | none =>
    if handle = Text.ofString "!" then return 0x21 :: suffix
    else if handle = Text.ofString "!!" then return commonLeader ++ suffix
    else failure

/-- The tag and the anchor of a node, in either order; `fuel` is their greatest number. -/
def properties : (fuel : Nat) → (tag anchor : Option Text) → Compose (Option Text × Option Text)
  | 0, tag, anchor => return (tag, anchor)
  | fuel + 1, tag, anchor => do
    match (← peek).kind with
    | .anchor name =>
      if anchor.isSome then return (tag, anchor)
      skip
      properties fuel tag (some name)
    | .tag handle suffix =>
      if tag.isSome then return (tag, anchor)
      skip
      properties fuel (some (← resolveTag handle suffix)) anchor
    | _ => return (tag, anchor)

/-- The explicit tag of a node, unless it is the one that leaves the tag open. -/
def explicitTag? (tag : Option Text) : Option Text :=
  match tag with
  | some t => if t.isEmpty || t == [0x21] then none else some (shortTag t)
  | none => none

/-- Gives an anchor the next number. -/
def declareAnchor (anchor : Option Text) : Compose (Option Nat) := do
  match anchor with
  | none => return none
  | some name =>
    let n := (← get).anchors.length
    modify fun s => { s with anchors := (name, n) :: s.anchors }
    return some n

/-- Keeps an anchored node. -/
def keep (number : Option Nat) (node : Node) : Compose Node := do
  match number with
  | none => return node
  | some n =>
    modify fun s => { s with anchored := (n, node) :: s.anchored }
    return node

/-- Items of a block sequence; `closers` are the tokens that leave an entry empty. -/
def entries (node : Compose Node) (closers : List TokenKind) : (fuel : Nat) → Compose (List Node)
  | 0 => failure
  | fuel + 1 => do
    let t ← peek
    if t.kind = .blockEntry then
      skip
      let item ← if ← isNext closers then pure (empty t.stop) else node
      return item :: (← entries node closers fuel)
    else return []

/-- What follows a mark in a block mapping: a node, or nothing. -/
def blockPart (node : Compose Node) (mark : Mark) : Compose Node := do
  if ← isNext [.key, .value, .blockEnd] then return empty mark else node

/-- Entries of a block mapping. -/
def blockPairs (node : Compose Node) : (fuel : Nat) → Compose (List (Node × Node))
  | 0 => failure
  | fuel + 1 => do
    let t ← peek
    if t.kind = .key then
      skip
      let k ← blockPart node t.stop
      let v ← peek
      let value ← if v.kind = .value then do skip; blockPart node v.stop else pure (empty v.start)
      return (k, value) :: (← blockPairs node fuel)
    else if t.kind = .blockEnd then
      skip
      return []
    else failure

/-- A pair in a flow sequence after its key mark. -/
def flowPair (node : Compose Node) : Compose (Node × Node) := do
  let t ← peek
  let k ←
    if ← isNext [.value, .flowEntry, .flowSequenceEnd] then do
      skip
      pure (empty t.stop)
    else node
  let v ← peek
  if v.kind = .value then
    skip
    if ← isNext [.flowEntry, .flowSequenceEnd] then return (k, empty v.start)
    return (k, ← node)
  else return (k, empty v.start)

/-- Items of a flow sequence. -/
def flowItems (node : Compose Node) : (fuel : Nat) → (first : Bool) → Compose (List Node)
  | 0, _ => failure
  | fuel + 1, first => do
    if ← isNext [.flowSequenceEnd] then
      skip
      return []
    if !first then
      if !(← isNext [.flowEntry]) then failure
      skip
    let t ← peek
    if t.kind = .key then
      skip
      let pair ← flowPair node
      return .mapping mapTag [pair] (position t.start) :: (← flowItems node fuel false)
    else if t.kind = .flowSequenceEnd then
      skip
      return []
    else
      let item ← node
      return item :: (← flowItems node fuel false)

/-- Entries of a flow mapping. -/
def flowPairs (node : Compose Node) : (fuel : Nat) → (first : Bool) → Compose (List (Node × Node))
  | 0, _ => failure
  | fuel + 1, first => do
    if ← isNext [.flowMappingEnd] then
      skip
      return []
    if !first then
      if !(← isNext [.flowEntry]) then failure
      skip
    let t ← peek
    if t.kind = .key then
      skip
      let k ← if ← isNext [.value, .flowEntry, .flowMappingEnd] then pure (empty (← peek).start) else node
      let value ←
        if ← isNext [.value] then do
          skip
          if ← isNext [.flowEntry, .flowMappingEnd] then pure (empty (← peek).start) else node
        else pure (empty (← peek).start)
      return (k, value) :: (← flowPairs node fuel false)
    else if t.kind = .flowMappingEnd then
      skip
      return []
    else
      let k ← node
      return (k, empty (← peek).start) :: (← flowPairs node fuel false)

/-- A node.  `block` allows block collections, and `indentless` a sequence whose dashes are not indented. -/
def node : (depth : Nat) → (block indentless : Bool) → Compose Node
  | 0, _, _ => failure
  | depth + 1, block, indentless => do
    let first ← peek
    let at_ := position first.start
    let room := (← get).tokens.length + 1
    match first.kind with
    | .reference name =>
      skip
      match (← get).anchors.lookup name with
      | some n => return .reference name n at_
      | none => failure
    | _ =>
      let (tag, anchor) ← properties 2 none none
      let explicit := explicitTag? tag
      let t ← peek
      let number ← declareAnchor anchor
      match t.kind with
      | .scalar text isPlain =>
        skip
        let implied := if !isPlain then strTag else if text == Text.ofString "<<" then mergeTag else plainTag text
        keep number (.scalar (explicit.getD implied) text at_)
      | .flowSequenceStart =>
        skip
        keep number (.sequence (explicit.getD seqTag) (← flowItems (node depth false false) room true) at_)
      | .flowMappingStart =>
        skip
        keep number (.mapping (explicit.getD mapTag) (← flowPairs (node depth false false) room true) at_)
      | kind =>
        if indentless && kind == .blockEntry then
          let items ← entries (node depth true false) [.blockEntry, .key, .value, .blockEnd] room
          keep number (.sequence (explicit.getD seqTag) items at_)
        else if block && kind == .blockSequenceStart then
          skip
          let items ← entries (node depth true false) [.blockEntry, .blockEnd] room
          if !(← isNext [.blockEnd]) then failure
          skip
          keep number (.sequence (explicit.getD seqTag) items at_)
        else if block && kind == .blockMappingStart then
          skip
          keep number (.mapping (explicit.getD mapTag) (← blockPairs (node depth true true) room) at_)
        else if tag.isSome || anchor.isSome then
          keep number (.scalar (explicit.getD nullTag) [] at_)
        else failure

/-- Directives before a document. -/
def directives : (fuel : Nat) → (versioned : Bool) → Compose Unit
  | 0, _ => return
  | fuel + 1, versioned => do
    match (← peek).kind with
    | .version major minor =>
      if versioned || major ≠ 1 || minor ≠ 1 then failure
      skip
      directives fuel true
    | .tagDirective handle leader =>
      if ((← get).leaders.lookup handle).isSome then failure
      modify fun s => { s with leaders := (handle, leader) :: s.leaders }
      skip
      directives fuel versioned
    | _ => return

/-- The root of the first document, if there is one. -/
def document : Compose (Option Node) := do
  let room := (← get).tokens.length + 1
  match (← peek).kind with
  | .streamEnd => return none
  | .version .. | .tagDirective .. | .documentStart =>
    directives room false
    if !(← isNext [.documentStart]) then failure
    skip
    let t ← peek
    let root ← match t.kind with
      | .version .. | .tagDirective .. | .documentStart | .documentEnd | .streamEnd => pure (empty t.start)
      | _ => node room true false
    discard peek
    return some root
  | _ =>
    let root ← node room true false
    discard peek
    return some root

end Compose

/-- Why a document cannot be read is the reader's own wording; here it only fails. -/
def parse? (t : Text) : Option (Option Document) := do
  let tokens := tokens (Characters.ofText t)
  let (root, s) ← Compose.document { tokens }
  return root.map fun r => ⟨r, s.anchored, tokens.length⟩

end MeaningForest.Yaml

import MeaningForest.Yaml.Comment
import MeaningForest.Yaml.Scalar
import MeaningForest.Yaml.Token

/-!
# Tokens from the characters of a YAML document

Blocks are given by indentation, and a mapping key is recognized only at the colon after it.  The scanner keeps the
columns of the open blocks and, for each level of brackets, the place where a key may have started; at a colon the key
token, and if need be the start of a block, is inserted there.  A token is settled once two more follow it and no key
can start at it; what is settled stays valid if the rest of the document is not well-formed.
-/

namespace MeaningForest.Yaml

/-- The place where a key may have started on one level of brackets. -/
structure KeyPlace where
  /-- Whether a key may still start there. -/
  isOpen : Bool := false
  /-- Whether only a key can stand there. -/
  isRequired : Bool := false
  /-- The number of tokens before it; at first, before the bracket of the level. -/
  number : Nat := 0
  mark : Mark := {}
  /-- How many brackets are open around it. -/
  level : Nat := 0
  deriving DecidableEq, Repr

/-- Whether the colon of a key comes too late: on another line, or too far away. -/
def KeyPlace.isPast (k : KeyPlace) (m : Mark) : Bool := k.mark.line < m.line || k.mark.index + 1024 < m.index

/-- The greatest number of open brackets, and of open blocks. -/
def depthLimit : Nat := 10000

/-- The state of scanning. -/
structure Scanner where
  cursor : Cursor
  /-- Whether the document goes on after its characters in a way that cannot be read. -/
  isCut : Bool := false
  /-- How far a document that starts with a second mark of its encoding reaches in its first piece; there the mark
  is looked for, and found, at the start of every line. -/
  marked : Nat := 0
  /-- The tokens so far, the last one first. -/
  made : List Token := []
  /-- The number of tokens so far. -/
  count : Nat := 0
  /-- The number of settled tokens. -/
  settled : Nat := 0
  /-- The column of the innermost open block, -1 if there is none. -/
  indent : Int := -1
  indents : List Int := []
  /-- Whether a key may start at the next token. -/
  keyAllowed : Bool := true
  /-- The possible key of each level of brackets, innermost first. -/
  keys : List KeyPlace := [{}]
  /-- The tokens that wait for the key of a level, by their numbers. -/
  waiting : List (Nat × Nat) := []
  /-- Where the search for the next token began. -/
  scan : Mark := {}
  /-- The comments found since then, the last one first. -/
  comments : List Comment := []
  deriving DecidableEq, Repr

/-- A step of scanning; it fails on a document that is not well-formed. -/
abbrev Scan := StateT Scanner Option

namespace Scan

/-! ### Parts of the state -/

def cursor : Scan Cursor := return (← get).cursor
def setCursor (c : Cursor) : Scan Unit := modify fun s => { s with cursor := c }
def allowKey (b : Bool) : Scan Unit := modify fun s => { s with keyAllowed := b }

/-- How many brackets are open. -/
def level : Scan Nat := return ((← get).keys.head?.map (·.level)).getD 0

/-- Whether the scanner is inside brackets. -/
def inFlow : Scan Bool := return 0 < (← level)

/-- Adds a token at the end. -/
def push (kind : TokenKind) (start stop : Mark) : Scan Unit :=
  modify fun s => { s with made := ⟨kind, start, stop⟩ :: s.made, count := s.count + 1 }

/-- Inserts a token after the first `number` ones; among settled tokens there is no room, and it comes last. -/
def insert (number : Nat) (kind : TokenKind) (mark : Mark) : Scan Unit :=
  modify fun s =>
    let later := if number < s.settled then 0 else s.count - number
    { s with made := s.made.take later ++ ⟨kind, mark, mark⟩ :: s.made.drop later, count := s.count + 1 }

/-- Adds a token of a number of characters. -/
def take (kind : TokenKind) (n : Nat) : Scan Unit := do
  let c ← cursor
  setCursor (c.skip n)
  push kind c.mark (c.skip n).mark

/-! ### Blocks -/

/-- Closes the blocks that are deeper than a column. -/
def closeBlocks (column : Int) : (fuel : Nat) → (base : Mark) → Scan Unit
  | 0, _ => return
  | fuel + 1, base => do
    let s ← get
    if column < s.indent then
      let mark := Comment.blockEnd s.indent s.comments base.index base
      push .blockEnd mark mark
      modify fun s => { s with indent := s.indents.head?.getD (-1), indents := s.indents.tail }
      closeBlocks column fuel mark

/-- Closes the blocks that end before a column; brackets keep them open.  They end before `base`. -/
def unroll (column : Int) (base : Mark) : Scan Unit := do
  if !(← inFlow) then closeBlocks column ((← get).indents.length + 1) { base with index := base.index - 1 }

/-- Closes all blocks here. -/
def unrollAll : Scan Unit := do unroll (-1) (← cursor).mark

/-- Opens a block at a column if that is deeper than the innermost one. -/
def roll (column : Nat) (number : Nat) (kind : TokenKind) (mark : Mark) : Scan Unit := do
  let s ← get
  if !(← inFlow) && s.indent < column then
    if depthLimit ≤ s.indents.length then failure
    set { s with indent := column, indents := s.indent :: s.indents }
    insert number kind mark

/-! ### Keys -/

/-- Lets a token wait no longer. -/
def release (number : Nat) : Scan Unit := modify fun s => { s with waiting := s.waiting.filter (·.1 != number) }

/-- Closes the possible key of this level. -/
def closeKey : Scan Unit :=
  modify fun s => { s with keys := match s.keys with
    | k :: keys => { k with isOpen := false } :: keys
    | [] => [] }

/-- Gives up the possible key of this level, which must not be required. -/
def dropKey : Scan Unit := do
  match (← get).keys with
  | k :: _ =>
    if k.isOpen then
      if k.isRequired then failure
      closeKey
      release k.number
  | [] => return

/-- Notes that a key may start here. -/
def saveKey : Scan Unit := do
  let s ← get
  if s.keyAllowed then
    let level ← level
    let isRequired := level == 0 && s.indent == s.cursor.mark.column
    dropKey
    modify fun s => { s with
      keys := ⟨true, isRequired, s.count, s.cursor.mark, level⟩ :: s.keys.tail
      waiting := (s.count, level) :: s.waiting }

/-- The possible key of this level if the colon after it can stand here. -/
def validKey? : Scan (Option KeyPlace) := do
  let s ← get
  match s.keys with
  | k :: _ =>
    if !k.isOpen then return none
    if k.isPast s.cursor.mark then
      if k.isRequired then failure
      closeKey
      return none
    return some k
  | [] => return none

/-- Whether the first token that is not settled waits for a key. -/
def isWaiting : Scan Bool := do
  let s ← get
  match s.waiting.lookup s.settled with
  | none => return false
  | some level =>
    match s.keys.find? (·.level == level) with
    | none => return false
    | some k =>
      if !k.isOpen then return false
      if k.isPast s.cursor.mark then
        if k.isRequired then failure
        let close := fun (j : KeyPlace) => if j.level = level then { j with isOpen := false } else j
        set { s with keys := s.keys.map close }
        return false
      return true

/-! ### Directives -/

/-- A number of at most nine digits. -/
def readNumber : Scan Nat := do
  let (digits, c) := (← cursor).takeWhile fun x => x < 0x80 && Text.isDigit x.toUInt8
  if digits.isEmpty || 9 < digits.length then failure
  setCursor c
  return digits.foldl (fun n d => n * 10 + (d - 0x30)) 0

/-- Moves over blanks. -/
def skipBlanks : Scan Unit := do setCursor ((← cursor).skipWhile isBlank)

/-- The handle of a tag: an exclamation mark, a word and perhaps another exclamation mark. -/
def readHandle (directive : Bool) : Scan (List Nat) := do
  let c ← cursor
  if !c.sees '!' then failure
  let (word, c) := (c.skip 1).takeWhile isWordScalar
  if c.sees '!' then
    setCursor (c.skip 1)
    return 0x21 :: word ++ [0x21]
  if directive && !word.isEmpty then failure
  setCursor c
  return 0x21 :: word

/-- Whether a character can be part of a tag. -/
def isTagScalar (x : Nat) : Bool := isWordScalar x || ";/?:@&=+$,.!~*'()[]%".toList.any (·.toNat == x)

/-- The bytes of a tag, with its escapes replaced.  Escaped bytes have to follow each other as in UTF-8; `tails` is how
many of a character are still to come. -/
def unescapeTag : (tails : Nat) → List Nat → Option Text
  | tails, [] => if tails = 0 then some [] else none
  | tails, 0x25 :: a :: b :: rest => do
    let byte := (← hexNumber? [a, b]).toUInt8
    let tails ← if tails = 0 then Sign.tailSize? byte else if Text.isTail byte then some (tails - 1) else none
    return byte :: (← unescapeTag tails rest)
  | tails, x :: rest => do
    if x = 0x25 ∨ tails ≠ 0 then none
    return Text.encode x ++ (← unescapeTag 0 rest)

/-- The rest of a tag after what was read of it. -/
def readTagRest (head : List Nat) : Scan Text := do
  let (more, c) := (← cursor).takeWhile isTagScalar
  if head.isEmpty && more.isEmpty then failure
  setCursor c
  match unescapeTag 0 more with
  | some text => return Text.ofScalars (head.drop 1) ++ text
  | none => failure

/-- A directive. -/
def fetchDirective : Scan Unit := do
  unrollAll
  dropKey
  allowKey false
  let start := (← cursor).mark
  let (name, c) := ((← cursor).skip 1).takeWhile isWordScalar
  if name.isEmpty || !c.gapAhead 0 then failure
  setCursor c
  skipBlanks
  let kind ←
    if name = "YAML".toList.map (·.toNat) then do
      let major ← readNumber
      if !(← cursor).sees '.' then failure
      setCursor ((← cursor).skip 1)
      pure (TokenKind.version major (← readNumber))
    else if name = "TAG".toList.map (·.toNat) then do
      let handle ← readHandle true
      if !(← cursor).seesAny isBlank then failure
      skipBlanks
      let leader ← readTagRest []
      if !(← cursor).gapAhead 0 then failure
      pure (TokenKind.tagDirective (Text.ofScalars handle) leader)
    else failure
  push kind start (← cursor).mark
  skipBlanks
  if (← cursor).sees '#' then setCursor ((← cursor).skipWhile (!isBreak ·))
  if !(← cursor).atLineEnd then failure
  setCursor (← cursor).takeBreak.2

/-! ### Tokens -/

/-- The start or the end of a document. -/
def fetchBoundary (kind : TokenKind) : Scan Unit := do
  unrollAll
  dropKey
  allowKey false
  take kind 3

/-- An opening bracket. -/
def fetchOpen (kind : TokenKind) : Scan Unit := do
  saveKey
  let level ← level
  if depthLimit ≤ level then failure
  modify fun s => { s with keys := ⟨false, false, s.count, s.cursor.mark, level + 1⟩ :: s.keys }
  allowKey true
  take kind 1

/-- A closing bracket. -/
def fetchClose (kind : TokenKind) : Scan Unit := do
  dropKey
  match (← get).keys with
  | k :: keys =>
    if 0 < k.level then
      release k.number
      modify fun s => { s with keys }
  | [] => pure ()
  allowKey false
  take kind 1

/-- A comma. -/
def fetchComma : Scan Unit := do
  dropKey
  allowKey true
  take .flowEntry 1

/-- The dash of a sequence entry. -/
def fetchEntry : Scan Unit := do
  let s ← get
  if !(← inFlow) then
    if !s.keyAllowed then failure
    roll s.cursor.mark.column s.count .blockSequenceStart s.cursor.mark
  dropKey
  allowKey true
  take .blockEntry 1

/-- The question mark of a key. -/
def fetchKey : Scan Unit := do
  let s ← get
  if !(← inFlow) then
    if !s.keyAllowed then failure
    roll s.cursor.mark.column s.count .blockMappingStart s.cursor.mark
  dropKey
  allowKey (!(← inFlow))
  take .key 1

/-- The colon of a value. -/
def fetchValue : Scan Unit := do
  match ← validKey? with
  | some k =>
    insert k.number .key k.mark
    roll k.mark.column k.number .blockMappingStart k.mark
    closeKey
    release k.number
    allowKey false
  | none =>
    let s ← get
    if !(← inFlow) then
      if !s.keyAllowed then failure
      roll s.cursor.mark.column s.count .blockMappingStart s.cursor.mark
    allowKey (!(← inFlow))
  take .value 1

/-- An alias or an anchor. -/
def fetchName (kind : Text → TokenKind) : Scan Unit := do
  saveKey
  allowKey false
  let start := (← cursor).mark
  let (name, c) := ((← cursor).skip 1).takeWhile isWordScalar
  if name.isEmpty then failure
  if !(c.gapAhead 0 || c.seesAny fun x => "?:,]\x7d%@\x60".toList.any (·.toNat == x)) then failure
  setCursor c
  push (kind (Text.ofScalars name)) start c.mark

/-- A tag. -/
def fetchTag : Scan Unit := do
  saveKey
  allowKey false
  let c ← cursor
  let (handle, suffix) ←
    if c.ahead? 1 = some 0x3c then do
      setCursor (c.skip 2)
      let suffix ← readTagRest []
      if !(← cursor).sees '>' then failure
      setCursor ((← cursor).skip 1)
      pure ([], suffix)
    else do
      let handle ← readHandle false
      if 1 < handle.length && handle.getLast? == some 0x21 then do
        pure (Text.ofScalars handle, ← readTagRest [])
      else do
        let suffix ← readTagRest handle
        pure (if suffix.isEmpty then ([], [0x21]) else ([0x21], suffix))
  if !(← cursor).gapAhead 0 then failure
  push (.tag handle suffix) c.mark (← cursor).mark

/-- A block scalar. -/
def fetchBlock (literal : Bool) : Scan Unit := do
  dropKey
  allowKey true
  let s ← get
  let (text, c) ← readBlock literal s.indent s.cursor
  setCursor c
  push (.scalar (Text.ofScalars text) false) s.cursor.mark c.mark

/-- A quoted scalar. -/
def fetchQuoted (double : Bool) : Scan Unit := do
  saveKey
  allowKey false
  let start ← cursor
  let (text, c) ← readQuoted double start
  setCursor c
  push (.scalar (Text.ofScalars text) false) start.mark c.mark

/-- A plain scalar. -/
def fetchPlain : Scan Unit := do
  saveKey
  let s ← get
  let (text, broken, c) ← readPlain (← inFlow) (s.indent + 1).toNat s.cursor
  setCursor c
  allowKey broken
  push (.scalar (Text.ofScalars text) true) s.cursor.mark c.mark

/-- Whether the last token is a colon; a comma does not count. -/
def isAfterValue : Scan Bool := do
  match (← get).made with
  | ⟨.flowEntry, _, _⟩ :: t :: _ => return t.kind == .value
  | t :: _ => return t.kind == .value
  | [] => return false

/-- Moves over the comments that start here. -/
def skipComments : Scan Unit := do
  let s ← get
  let (cursor, found) := readComments s.indent (← inFlow) (← isAfterValue) s.scan s.cursor
  set { s with cursor, comments := found ++ s.comments }

/-- Moves to the next token over blanks, comments and line breaks.  Tabs do not count as indentation. -/
def toNextToken : (fuel : Nat) → Scan Unit
  | 0 => return
  | fuel + 1 => do
    let s ← get
    let tabs := (← inFlow) || !s.keyAllowed
    let c := s.cursor
    let c := if c.mark.column = 0 ∧ c.mark.index < s.marked then c.skip 1 else c
    setCursor (c.skipWhile fun x => x == 0x20 || (tabs && x == 0x09))
    if (← cursor).sees '#' then skipComments
    let c ← cursor
    if c.seesAny isBreak then
      setCursor c.takeBreak.2
      if !(← inFlow) then allowKey true
      toNextToken fuel

/-- Moves over a comment on the line of the last token.  What is there has to be readable. -/
def skipLineComment : Scan Unit := do
  let s ← get
  let c := s.cursor
  if s.isCut && c.rest.isEmpty then failure
  let blanks := (c.rest.takeWhile isBlank).length
  if c.linesSinceContent = 0 ∧ blanks < 512 then
    let after := c.skip blanks
    if s.isCut && after.rest.isEmpty then failure
    if after.sees '#' then setCursor after.skipLine

/-- The end of the document. -/
def fetchEnd : Scan Unit := do
  let c ← cursor
  if c.mark.column ≠ 0 then setCursor { c with mark := { c.mark with line := c.mark.line + 1, column := 0 } }
  unrollAll
  dropKey
  allowKey false
  push .streamEnd (← cursor).mark (← cursor).mark

/-- Whether a plain scalar can start here. -/
def startsPlain (inFlow : Bool) (c : Cursor) : Bool :=
  match c.next? with
  | none => false
  | some x =>
    let special := "-?:,[]\x7b\x7d#&*!|>'\"%@\x60".toList.any (·.toNat == x)
    (!c.gapAhead 0 && !special) || (x == 0x2d && !((c.ahead? 1).map isBlank).getD false) ||
      (!inFlow && (x == 0x3f || x == 0x3a) && !c.gapAhead 1)

/-- Scans a token that is no part of the frame around documents. -/
def fetchContent (c : Cursor) (flow : Bool) : Scan Unit := do
  if c.sees '[' then fetchOpen .flowSequenceStart
  else if c.sees '\x7b' then fetchOpen .flowMappingStart
  else if c.sees ']' then fetchClose .flowSequenceEnd
  else if c.sees '\x7d' then fetchClose .flowMappingEnd
  else if c.sees ',' then fetchComma
  else if c.sees '-' && c.gapAhead 1 then fetchEntry
  else if c.sees '?' && (flow || c.gapAhead 1) then fetchKey
  else if c.sees ':' && (flow || c.gapAhead 1) then fetchValue
  else if c.sees '*' then fetchName .reference
  else if c.sees '&' then fetchName .anchor
  else if c.sees '!' then fetchTag
  else if c.sees '|' && !flow then fetchBlock true
  else if c.sees '>' && !flow then fetchBlock false
  else if c.sees '\'' then fetchQuoted false
  else if c.sees '"' then fetchQuoted true
  else if startsPlain flow c then fetchPlain
  else failure
  if !(c.sees '-' && c.gapAhead 1) then skipLineComment

/-- Scans the next token; says whether there can be more.  The longest mark has four characters, and they have to be
readable. -/
def fetch : Scan Bool := do
  modify fun s => { s with scan := s.cursor.mark, comments := [] }
  toNextToken ((← cursor).rest.length + 1)
  let c ← cursor
  unroll c.mark.column (← get).scan
  if (← get).isCut && (c.rest.drop 3).isEmpty then failure
  if c.rest.isEmpty then
    fetchEnd
    return false
  if c.mark.column = 0 && c.sees '%' then fetchDirective
  else if c.seesBoundary '-' then fetchBoundary .documentStart
  else if c.seesBoundary '.' then fetchBoundary .documentEnd
  else fetchContent c (← inFlow)
  return true

end Scan

namespace Scanner

/-- Settles the tokens that can be; says whether no key is missing.  `fuel` is the number of tokens. -/
def settle : (fuel : Nat) → Scanner → Scanner × Bool
  | 0, s => (s, true)
  | fuel + 1, s =>
    if s.count ≤ s.settled + 2 then (s, true)
    else
      match Scan.isWaiting s with
      | none => (s, false)
      | some (true, s) => (s, true)
      | some (false, s) =>
        settle fuel { s with settled := s.settled + 1, waiting := s.waiting.filter (s.settled < ·.1) }

/-- The settled tokens. -/
def settledTokens (s : Scanner) : List Token := s.made.reverse.take s.settled

/-- Scans tokens until the end or a fault; each one takes a character.  Before a fault only settled tokens count. -/
def tokens : (fuel : Nat) → Scanner → List Token
  | 0, s => s.settledTokens
  | fuel + 1, s =>
    match s.settle (s.count - s.settled) with
    | (s, false) => s.settledTokens
    | (s, true) =>
      match Scan.fetch s with
      | none => s.settledTokens
      | some (false, s) => s.made.reverse
      | some (true, s) => tokens fuel s

end Scanner

/-- The tokens of a document. -/
def tokens (cs : Characters) : List Token :=
  let marked := if cs.all.head? = some 0xfeff then cs.first else 0
  Scanner.tokens (cs.all.length + 1) { cursor := { rest := cs.all }, isCut := cs.isCut, marked }

end MeaningForest.Yaml

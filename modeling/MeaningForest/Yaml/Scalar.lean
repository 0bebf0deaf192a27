import MeaningForest.Yaml.Cursor

/-!
# Scalars of YAML documents

A scalar is plain, quoted or a block.  Line breaks inside plain and quoted scalars are folded: one break counts as a
space, of several the first is dropped.  Blanks around a break do not count.
-/

namespace MeaningForest.Yaml

/-! ### Gaps -/

/-- The white space between two parts of a scalar. -/
structure Gap where
  /-- Blanks on one line. -/
  blanks : List Nat := []
  /-- The first line break. -/
  first : List Nat := []
  /-- Further line breaks. -/
  more : List Nat := []
  isBroken : Bool := false
  deriving DecidableEq, Repr

/-- What a gap counts as. -/
def Gap.folded (g : Gap) : List Nat :=
  if !g.isBroken then g.blanks
  else if g.first = [0x0a] then (if g.more.isEmpty then [0x20] else g.more)
  else g.first ++ g.more

/-- Reads white space.  A tab before column `least` after a line break is refused. -/
def readGap (least : Nat) : (fuel : Nat) → Gap → Cursor → Option (Gap × Cursor)
  | 0, g, c => some (g, c)
  | fuel + 1, g, c =>
    match c.next? with
    | none => some (g, c)
    | some x =>
      if isBlank x then
        if g.isBroken then
          if x = 0x09 ∧ c.mark.column < least then none else readGap least fuel g (c.skip 1)
        else readGap least fuel { g with blanks := g.blanks ++ [x] } (c.skip 1)
      else if isBreak x then
        let (text, c) := c.takeBreak
        if g.isBroken then readGap least fuel { g with more := g.more ++ text } c
        else readGap least fuel { g with blanks := [], first := text, isBroken := true } c
      else some (g, c)

/-! ### Plain scalars -/

/-- Whether a plain scalar ends before the next character. -/
def endsPlain (inFlow : Bool) (c : Cursor) : Bool :=
  c.gapAhead 0 || (c.sees ':' && c.gapAhead 1) ||
    (inFlow && c.seesAny fun x => [',', '?', '[', ']', '\x7b', '\x7d'].any (·.toNat == x))

/-- The characters of a plain scalar up to a gap. -/
def plainChunk (inFlow : Bool) : (fuel : Nat) → Cursor → List Nat × Cursor
  | 0, c => ([], c)
  | fuel + 1, c =>
    if endsPlain inFlow c then ([], c)
    else
      let (more, last) := plainChunk inFlow fuel (c.skip 1)
      (c.rest.take 1 ++ more, last)

/-- The parts of a plain scalar after a gap; says also whether it ends after a line break. -/
def plainParts (inFlow : Bool) (least : Nat) : (fuel : Nat) → Gap → Cursor → Option (List Nat × Bool × Cursor)
  | 0, g, c => some ([], g.isBroken, c)
  | fuel + 1, g, c =>
    if c.atBoundary || c.sees '#' then some ([], g.isBroken, c)
    else
      let (chunk, c) := plainChunk inFlow c.rest.length c
      let text := if chunk.isEmpty then [] else g.folded ++ chunk
      if !(c.seesAny fun x => isBlank x || isBreak x) then some (text, chunk.isEmpty && g.isBroken, c)
      else do
        let (g, c) ← readGap least c.rest.length {} c
        if !inFlow && c.mark.column < least then return (text, g.isBroken, c)
        let (more, broken, c) ← plainParts inFlow least fuel g c
        return (text ++ more, broken, c)

/-- Reads a plain scalar. -/
def readPlain (inFlow : Bool) (least : Nat) (c : Cursor) : Option (List Nat × Bool × Cursor) :=
  plainParts inFlow least (c.rest.length + 1) {} c

/-! ### Quoted scalars -/

/-- The value of hexadecimal digits. -/
def hexNumber? (digits : List Nat) : Option Nat :=
  digits.foldlM (fun n x => do
    let d ← if x < 0x80 then Text.hexValue? x.toUInt8 else none
    return n * 16 + d) 0

/-- An escape after its backslash: the character and the length of the escape. -/
def readEscape (after : List Nat) : Option (Nat × Nat) :=
  let hex := fun n => do
    let digits := (after.drop 1).take n
    if digits.length < n then none
    let v ← hexNumber? digits
    if (0xd800 ≤ v ∧ v ≤ 0xdfff) ∨ 0x10ffff < v then none
    some (v, n + 1)
  match after with
  | [] => none
  | x :: _ =>
    match Char.ofNat x with
    | '0' => some (0x00, 1)
    | 'a' => some (0x07, 1)
    | 'b' => some (0x08, 1)
    | 't' | '\t' => some (0x09, 1)
    | 'n' => some (0x0a, 1)
    | 'v' => some (0x0b, 1)
    | 'f' => some (0x0c, 1)
    | 'r' => some (0x0d, 1)
    | 'e' => some (0x1b, 1)
    | ' ' | '"' | '\'' | '\\' => some (x, 1)
    | 'N' => some (0x85, 1)
    | '_' => some (0xa0, 1)
    | 'L' => some (0x2028, 1)
    | 'P' => some (0x2029, 1)
    | 'x' => hex 2
    | 'u' => hex 4
    | 'U' => hex 8
    | _ => none

/-- The quote of a scalar. -/
def quoteMark (double : Bool) : Char := if double then '"' else '\''

/-- The characters of a quoted scalar up to a gap or its end; says also whether an escaped line break ended them. -/
def quotedChunk (double : Bool) : (fuel : Nat) → Cursor → Option (List Nat × Bool × Cursor)
  | 0, c => some ([], false, c)
  | fuel + 1, c =>
    if c.gapAhead 0 then some ([], false, c)
    else if !double && c.rest.take 2 == [0x27, 0x27] then do
      let (more, last) ← quotedChunk double fuel (c.skip 2)
      return (0x27 :: more, last)
    else if c.sees (quoteMark double) then some ([], false, c)
    else if double && c.sees '\\' then
      if (c.skip 1).seesAny isBreak then some ([], true, (c.skip 1).takeBreak.2)
      else do
        let (x, n) ← readEscape (c.rest.drop 1)
        let (more, last) ← quotedChunk double fuel (c.skip (n + 1))
        return (x :: more, last)
    else do
      let (more, last) ← quotedChunk double fuel (c.skip 1)
      return (c.rest.take 1 ++ more, last)

/-- The parts of a quoted scalar up to its closing quote. -/
def quotedParts (double : Bool) : (fuel : Nat) → Cursor → Option (List Nat × Cursor)
  | 0, _ => none
  | fuel + 1, c =>
    if c.atBoundary || c.rest.isEmpty then none
    else do
      let (chunk, escaped, c) ← quotedChunk double c.rest.length c
      if c.sees (quoteMark double) then return (chunk, c.skip 1)
      let (g, c) ← readGap 0 c.rest.length { isBroken := escaped } c
      let (more, c) ← quotedParts double fuel c
      return (chunk ++ g.folded ++ more, c)

/-- Reads a quoted scalar that starts here. -/
def readQuoted (double : Bool) (c : Cursor) : Option (List Nat × Cursor) :=
  quotedParts double (c.rest.length + 1) (c.skip 1)

/-! ### Block scalars -/

/-- What becomes of the line breaks at the end of a block scalar. -/
inductive Chomp where
  | clip
  | strip
  | keep
  deriving DecidableEq, Repr

/-- Reads the chomping mark of a block scalar. -/
def readChomp (c : Cursor) : Chomp × Cursor :=
  if c.sees '+' then (.keep, c.skip 1) else if c.sees '-' then (.strip, c.skip 1) else (.clip, c)

/-- Reads the indentation mark of a block scalar, which is not zero. -/
def readIncrement (c : Cursor) : Option (Nat × Cursor) :=
  match c.next? with
  | some x =>
    if x = 0x30 then none
    else if 0x31 ≤ x ∧ x ≤ 0x39 then some (x - 0x30, c.skip 1)
    else some (0, c)
  | none => some (0, c)

/-- Reads the marks of a block scalar in either order. -/
def readBlockHead (c : Cursor) : Option (Chomp × Nat × Cursor) :=
  match readChomp c with
  | (.clip, c) => do
    let (n, c) ← readIncrement c
    let (chomp, c) := if n = 0 then (.clip, c) else readChomp c
    return (chomp, n, c)
  | (chomp, c) => do
    let (n, c) ← readIncrement c
    return (chomp, n, c)

/-- Reads indentation and empty lines before a line of a block scalar.  Without a known indentation, gives the deepest
found. -/
def readBlockBreaks (indent : Nat) : (fuel : Nat) → (deepest : Nat) → Cursor → Option (List Nat × Nat × Cursor)
  | 0, deepest, c => some ([], deepest, c)
  | fuel + 1, deepest, c =>
    let blanks := (c.rest.takeWhile (· == 0x20)).length
    let c := c.skip (if indent = 0 then blanks else min blanks (indent - c.mark.column))
    let deepest := max deepest c.mark.column
    if (indent = 0 ∨ c.mark.column < indent) ∧ c.sees '\t' then none
    else if c.seesAny isBreak then do
      let (text, c) := c.takeBreak
      let (more, deepest, c) ← readBlockBreaks indent fuel deepest c
      return (text ++ more, deepest, c)
    else some ([], deepest, c)

/-- The lines of a block scalar.  `lead` is the break before the line, `trail` are the empty lines before it and
`indented` says whether the line before started with a blank. -/
def blockLines (literal : Bool) (chomp : Chomp) (indent : Nat) :
    (fuel : Nat) → (lead trail : List Nat) → (indented : Bool) → Cursor → Option (List Nat × Cursor)
  | 0, _, _, _, _ => none
  | fuel + 1, lead, trail, indented, c =>
    if c.mark.column = indent ∧ ¬ c.rest.isEmpty then do
      let blank := c.seesAny isBlank
      let joint :=
        if !literal && !indented && !blank && lead == [0x0a] then (if trail.isEmpty then [0x20] else []) else lead
      let (text, c) := c.takeWhile fun x => !isBreak x
      let (lead', c) := c.takeBreak
      let (trail', _, c) ← readBlockBreaks indent (c.rest.length + 1) 0 c
      let (more, c) ← blockLines literal chomp indent fuel lead' trail' blank c
      return (joint ++ trail ++ text ++ more, c)
    else
      match chomp with
      | .strip => some ([], c)
      | .clip => some (lead, c)
      | .keep => some (lead ++ trail, c)

/-- Reads a block scalar that starts here; `parent` is the indentation of what it is in, -1 at the outermost level. -/
def readBlock (literal : Bool) (parent : Int) (c : Cursor) : Option (List Nat × Cursor) := do
  let (chomp, increment, c) ← readBlockHead (c.skip 1)
  let c := c.skipWhile isBlank
  let c := if c.sees '#' then c.skipWhile (!isBreak ·) else c
  if !c.atLineEnd then none
  let c := c.takeBreak.2
  let known := if increment = 0 then 0 else (if 0 ≤ parent then parent.toNat else 0) + increment
  let (trail, deepest, c) ← readBlockBreaks known (c.rest.length + 1) 0 c
  let indent := if known = 0 then max deepest (max (parent + 1).toNat 1) else known
  blockLines literal chomp indent (c.rest.length + 1) [] trail false c

end MeaningForest.Yaml

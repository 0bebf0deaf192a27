import MeaningForest.Yaml.Cursor

/-!
# Comments of YAML documents

Comment lines between two tokens belong to the token before or after them.  A block ends at the first comment line
below it that is indented as deep as the block, so the scanner keeps the comments it passes over in one go.
-/

namespace MeaningForest.Yaml

/-- Comment lines that belong together. -/
structure Comment where
  /-- Where the search began that found them, as a number of characters. -/
  scan : Nat
  /-- Where the first line starts; its column counts from one. -/
  start : Mark
  /-- Where the search went on, as a number of characters. -/
  stop : Nat
  deriving DecidableEq, Repr

/-- Where a block of an indentation ends: at the first of the comments, given from the last one on, that are as deep
as the block and reach back to `stop` without a gap, or else at `base`. -/
def Comment.blockEnd (indent : Int) : List Comment → (stop : Nat) → (base : Mark) → Mark
  | [], _, base => base
  | c :: earlier, stop, base =>
    if c.stop < stop then base
    else blockEnd indent earlier c.scan (if (c.start.column : Int) = indent + 1 then c.start else base)

/-- What decides whether comments end the part of the document before them. -/
structure CommentPlace where
  /-- The indentation of the innermost block, at least zero. -/
  indent : Nat
  inFlow : Bool
  /-- The line on which a comment has to start to belong to what is before it. -/
  footLine : Option Nat
  deriving DecidableEq, Repr

/-- The state of passing over comments. -/
structure CommentSearch where
  /-- The end of the last comment, or where the search began. -/
  cursor : Cursor
  /-- The characters that are looked at, and how far after the cursor they are. -/
  ahead : List Nat
  peek : Nat
  line : Nat
  column : Nat
  /-- Whether the last line was empty. -/
  afterEmpty : Bool := false
  /-- Whether the next empty line is the first one. -/
  noEmptyYet : Bool
  /-- The start of the lines that are not yet kept as a comment. -/
  open? : Option Mark := none
  scan : Nat
  found : List Comment := []
  deriving DecidableEq, Repr

namespace CommentSearch

/-- Where the search is, as a number of characters. -/
def index (s : CommentSearch) : Nat := s.cursor.mark.index + s.peek

/-- Keeps the lines so far as a comment that ends here. -/
def split (s : CommentSearch) : CommentSearch :=
  match s.open? with
  | none => s
  | some start => { s with found := ⟨s.scan, start, s.index⟩ :: s.found, scan := s.index, open? := none }

/-- Looks at the next character. -/
def step (s : CommentSearch) : CommentSearch := { s with ahead := s.ahead.tail, peek := s.peek + 1 }

/-- Goes on after an empty rest of a line.  A line break of several bytes hides what follows. -/
def nextLine (s : CommentSearch) (c : Nat) : CommentSearch :=
  { s with
    ahead := if c < 0x80 then s.ahead.tail else [Text.replacement], peek := s.peek + 1
    line := s.line + 1, column := 0, afterEmpty := true, noEmptyYet := false }

/-- Moves over the comment that starts here. -/
def takeLine (s : CommentSearch) : CommentSearch :=
  let cursor := (s.cursor.skipGap s.index s.peek).skipLine
  { s with
    cursor, ahead := cursor.rest.tail, peek := 1, line := cursor.mark.line, column := 0, afterEmpty := false
    open? := some (s.open?.getD ⟨s.line, s.column, s.index⟩) }

/-- Whether the lines so far belong to what is before them if an empty line or the end follows. -/
def isFoot (p : CommentPlace) (s : CommentSearch) : Bool :=
  !s.afterEmpty && s.noEmptyYet && s.open?.any fun m => p.footLine == some m.line || m.column - 1 < p.indent

/-- Whether the lines so far belong to what is before them because what follows is not indented as deep. -/
def isDedented (p : CommentPlace) (s : CommentSearch) : Bool :=
  s.column - 1 < p.indent && s.open?.any fun m => s.column != m.column

/-- Looks for further comments, at most 511 characters after the last one; `fuel` bounds the characters. -/
def run (p : CommentPlace) : (fuel : Nat) → CommentSearch → CommentSearch
  | 0, s => s
  | fuel + 1, s =>
    if 512 ≤ s.peek then s
    else
      let s := { s with column := s.column + 1 }
      match s.ahead with
      | [] => if isFoot p s then s.split else s
      | c :: _ =>
        if isBlank c then run p fuel s.step
        else if p.inFlow && (c == 0x5d || c == 0x7d) then s.split
        else if isBreak c then run p fuel ((if isFoot p s then s.split else s).nextLine c)
        else
          let s := if isDedented p s then s.split else s
          if c = 0x23 then run p fuel s.takeLine else s

/-- Keeps the last lines as a comment of what follows. -/
def finish (s : CommentSearch) : CommentSearch :=
  match s.open? with
  | none => s
  | some start => { s with found := ⟨s.scan, start, s.index - 1⟩ :: s.found, open? := none }

end CommentSearch

/-- Moves over the comment here and those that follow it; gives the comments too, the last one first.  `scan` is where
the search for the next token began, and `afterValue` says whether the token before it is a colon. -/
def readComments (indent : Int) (inFlow afterValue : Bool) (scan : Mark) (c : Cursor) : Cursor × List Comment :=
  let lines := c.linesSinceContent
  let foot := c.contentLine + (if lines = 0 ∧ 1 < c.mark.column then 2 else 1)
  let place : CommentPlace := ⟨indent.toNat, inFlow, if scan.line = 0 ∨ afterValue then none else some foot⟩
  let search : CommentSearch :=
    { cursor := c, ahead := c.rest, peek := 0, line := c.mark.line, column := c.mark.column, noEmptyYet := lines ≤ 1,
      scan := scan.index }
  let search := (search.run place (2 * c.rest.length + 2)).finish
  (search.cursor, search.found)

end MeaningForest.Yaml

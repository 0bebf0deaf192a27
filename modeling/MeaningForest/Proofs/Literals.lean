import MeaningForest.Code.Constructor
import MeaningForest.Proofs.Expressions

/-!
# Literals of generated code

A new object is written down as one literal: the handles around the root handle, and in it the chain of layers, each
with the initial cells of its fields and the tag that leads to the next layer.

* `Code.Composite.read?_lines`, `Code.Allocation.read?_lines`: a chain of layers, and an allocation, is read back from
  its lines if the names are words.
* `Code.LayerLiteral.lines_eq`, `Code.ConstructorCode.allocationLines_eq`: what is generated is printed as such.
-/

namespace MeaningForest

open Lexeme

namespace Text

theorem fields?_step (first piece : Text) (pieces : List Text) {name t : Text} (hname : IsWord name)
    (ht : EndsName t) :
    fields? first (piece :: pieces) (first ++ (name ++ t)) =
      (fields? piece pieces t).map fun r => (name :: r.1, r.2) := by
  obtain ⟨htake, hdrop⟩ := hname.takeWhile_append ht
  rw [fields?, dropPrefix?_append, Option.bind_some, htake, hdrop]

theorem fields?_eq_none {first t : Text} (h : t.dropPrefix? first = none) (pieces : List Text) :
    fields? first pieces t = none := by
  cases pieces <;> simp [fields?, h]

end Text

namespace Code

open Text

/-! ### Cells -/

/-- The initial cell of a field: what makes it is a function of a package, and its arguments are a type and a value. -/
structure CellEntry where
  name : Text
  package : Text
  function : Text
  arguments : Text
  deriving DecidableEq, Repr

namespace CellEntry

def text (e : CellEntry) : Text :=
  weave [] [e.name, e.package, e.function] [": ", ".", "["] ++ (e.arguments ++ Text.ofString ",")

def read? (t : Text) : Option CellEntry :=
  match fields? [] [": ", ".", "["] t with
  | some ([name, package, function], rest) =>
    if rest.getLast? = some 0x2c then some ⟨name, package, function, rest.dropLast⟩ else none
  | _ => none

structure Worded (e : CellEntry) : Prop where
  name : e.name.IsWord
  package : e.package.IsWord
  function : e.function.IsWord

theorem Worded.read?_text {e : CellEntry} (h : e.Worded) : read? e.text = some e := by
  have hfields := fields?_weave [] [e.name, e.package, e.function] [": ", ".", "["] rfl
    (by decide) (by simp [h.name, h.package, h.function]) (e.arguments ++ Text.ofString ",")
  have hcomma : Text.ofString "," = [0x2c] := by decide
  rw [read?, text, hfields]
  simp [hcomma]

/-- The entry for a field of a layer. -/
def ofField (f : FieldSlot) : CellEntry := ⟨f.name, runtimeName, "New" ++ cellKind f, f.type ++ "](" ++ f.init ++ ")"⟩

theorem text_ofField (f : FieldSlot) : (ofField f).text = f.name ++ ": " ++ cellInit f ++ "," := by
  have hnew : Text.ofString ".New" = Text.ofString "." ++ Text.ofString "New" := by decide
  simp [text, ofField, cellInit, weave, hnew]

theorem worded_ofField {f : FieldSlot} (h : f.name.IsWord) : (ofField f).Worded := by
  refine ⟨h, (by decide : runtimeName.IsWord), ?_⟩
  show IsWord ("New" ++ cellKind f)
  rw [cellKind]
  split <;> decide

end CellEntry

/-! ### Chains of layers -/

/-- A literal for a chain of layers: the cells of each, and the tag of the last or that of the next with its type. -/
inductive Composite where
  | last (cells : List CellEntry) (tag : Text)
  | next (cells : List CellEntry) (tag layer : Text) (rest : Composite)
  deriving DecidableEq, Repr

namespace Composite

/-- The line that ends a chain, and the one before the next layer. -/
def lastText (tag : Text) : Text := weave "variant: " [tag] ["\x7b\x7d,"]
def nextText (tag layer : Text) : Text := weave "variant: " [tag, layer] ["\x7bnext: &", "\x7b"]

def lines : Composite → List Line
  | last cells tag => cells.map (line ·.text) ++ [line (lastText tag)]
  | next cells tag layer rest => cells.map (line ·.text) ++ block (nextText tag layer) rest.lines "\x7d\x7d,"

/-- A cell in front of the others of the first layer. -/
def addCell (e : CellEntry) : Composite → Composite
  | last cells tag => last (e :: cells) tag
  | next cells tag layer rest => next (e :: cells) tag layer rest

/-- Reads a line in front of others: what is read of them is the literal that the line belongs to, once its tag was
read, and what is read of those around it. -/
def push (t : Text) : List (Option Composite) → Option (List (Option Composite))
  | [] => none
  | top :: below =>
    if t = "\x7d\x7d," then some (none :: top :: below)
    else
      match CellEntry.read? t, top with
      | some e, some c => some (some (c.addCell e) :: below)
      | some _, none => none
      | none, _ =>
        match fields? "variant: " ["\x7b\x7d,"] t, fields? "variant: " ["\x7bnext: &", "\x7b"] t, top, below with
        | some ([tag], []), _, none, below => some (some (last [] tag) :: below)
        | _, some ([tag, layer], []), some rest, none :: below => some (some (next [] tag layer rest) :: below)
        | _, _, _, _ => none

def read? (lines : List Line) : Option Composite :=
  match lines.foldr (fun l stack => stack.bind (push l.text)) (some [none]) with
  | some [some c] => some c
  | _ => none

/-- The names in a literal are words; types and values may be anything. -/
def Worded : Composite → Prop
  | last cells tag => (∀ e ∈ cells, e.Worded) ∧ tag.IsWord
  | next cells tag layer rest => (∀ e ∈ cells, e.Worded) ∧ tag.IsWord ∧ layer.IsWord ∧ rest.Worded

theorem read?_variant {t : Text} (h : IsWord t) {b : UInt8} (hb : isWordPart b = false) (hdot : b ≠ 0x2e) (u : Text) :
    CellEntry.read? (Text.ofString "variant: " ++ (t ++ b :: u)) = none := by
  have hsplit : Text.ofString "variant: " ++ (t ++ b :: u) =
      [] ++ (Text.ofString "variant" ++ (Text.ofString ": " ++ (t ++ b :: u))) := by
    have hword : Text.ofString "variant: " = Text.ofString "variant" ++ Text.ofString ": " := by decide
    rw [hword, List.append_assoc, List.nil_append]
  have hdrop : (b :: u).dropPrefix? (Text.ofString ".") = none := by
    have hmark : Text.ofString "." = [0x2e] := by decide
    rw [hmark, List.dropPrefix?, if_neg (by simpa using hdot)]
  rw [CellEntry.read?, hsplit, fields?_step [] ": " _ (by decide) ⟨0x3a, rfl, by decide⟩,
    fields?_step ": " "." _ h ⟨b, rfl, hb⟩,
    fields?_eq_none hdrop]
  rfl

theorem push_cell {e : CellEntry} (he : e.Worded) (c : Composite) (below : List (Option Composite)) :
    push e.text (some c :: below) = some (some (c.addCell e) :: below) := by
  have hne : e.text ≠ Text.ofString "\x7d\x7d," := by
    intro heq
    have hread := he.read?_text
    have hnone : CellEntry.read? "\x7d\x7d," = none := by decide
    rw [heq, hnone] at hread
    cases hread
  simp only [push, if_neg hne, he.read?_text]

theorem push_last {tag : Text} (h : tag.IsWord) (below : List (Option Composite)) :
    push (lastText tag) (none :: below) = some (some (last [] tag) :: below) := by
  have hne : lastText tag ≠ Text.ofString "\x7d\x7d," := fun heq => by
    rw [lastText, weave] at heq
    cases heq
  have hcell : CellEntry.read? (lastText tag) = none :=
    read?_variant h (b := 0x7b) (by decide) (by decide) (Text.ofString "\x7d,")
  have hfields := fields?_weave "variant: " [tag] ["\x7b\x7d,"] rfl (by decide) (by simp [h]) []
  rw [List.append_nil] at hfields
  unfold push
  simp only [if_neg hne, hcell]
  rw [lastText, hfields]

theorem push_next {tag layer : Text} (htag : tag.IsWord) (hlayer : layer.IsWord) (rest : Composite)
    (below : List (Option Composite)) :
    push (nextText tag layer) (some rest :: none :: below) = some (some (next [] tag layer rest) :: below) := by
  have hne : nextText tag layer ≠ Text.ofString "\x7d\x7d," := fun heq => by
    rw [nextText, weave] at heq
    cases heq
  have hcell : CellEntry.read? (nextText tag layer) = none :=
    read?_variant htag (b := 0x7b) (by decide) (by decide) (Text.ofString "next: &" ++ (layer ++ Text.ofString "\x7b"))
  have hfields := fields?_weave "variant: " [tag, layer] ["\x7bnext: &", "\x7b"] rfl (by decide)
    (by simp [htag, hlayer]) []
  rw [List.append_nil] at hfields
  have hlast : fields? "variant: " ["\x7b\x7d,"] (nextText tag layer) = none := by
    have hdrop : (Text.ofString "\x7bnext: &" ++ (layer ++ Text.ofString "\x7b")).dropPrefix?
        (Text.ofString "\x7b\x7d,") = none := rfl
    have hstep := fields?_step "variant: " "\x7b\x7d," []
      (t := Text.ofString "\x7bnext: &" ++ (layer ++ Text.ofString "\x7b")) htag ⟨0x7b, rfl, by decide⟩
    rw [fields?_eq_none hdrop] at hstep
    exact hstep
  unfold push
  simp only [if_neg hne, hcell, hlast]
  rw [nextText, hfields]

theorem foldr_push_cells {cells : List CellEntry} (h : ∀ e ∈ cells, e.Worded) (c : Composite)
    (below : List (Option Composite)) :
    (cells.map (line ·.text)).foldr (fun l stack => stack.bind (push l.text)) (some (some c :: below)) =
      some (some (cells.foldr addCell c) :: below) := by
  induction cells with
  | nil => rfl
  | cons e cells ih =>
    obtain ⟨he, hcells⟩ := List.forall_mem_cons.1 h
    rw [List.map_cons, List.foldr_cons, ih hcells, Option.bind_some]
    exact push_cell he _ _

theorem foldr_addCell_last (cells own : List CellEntry) (tag : Text) :
    cells.foldr addCell (last own tag) = last (cells ++ own) tag := by
  induction cells with
  | nil => rfl
  | cons e cells ih => rw [List.foldr_cons, ih]; rfl

theorem foldr_addCell_next (cells own : List CellEntry) (tag layer : Text) (rest : Composite) :
    cells.foldr addCell (next own tag layer rest) = next (cells ++ own) tag layer rest := by
  induction cells with
  | nil => rfl
  | cons e cells ih => rw [List.foldr_cons, ih]; rfl

theorem foldr_push_lines {c : Composite} (h : c.Worded) (below : List (Option Composite)) :
    c.lines.foldr (fun l stack => stack.bind (push l.text)) (some (none :: below)) = some (some c :: below) := by
  induction c generalizing below with
  | last cells tag =>
    obtain ⟨hcells, htag⟩ := h
    rw [lines, List.foldr_append, List.foldr_cons, List.foldr_nil, Option.bind_some, line, push_last htag,
      foldr_push_cells hcells, foldr_addCell_last, List.append_nil]
  | next cells tag layer rest ih =>
    obtain ⟨hcells, htag, hlayer, hrest⟩ := h
    have hclose : push (line "\x7d\x7d,").text (none :: below) = some (none :: none :: below) := rfl
    have hindent : (indented rest.lines).foldr (fun l stack => stack.bind (push l.text))
      (some (none :: none :: below)) =
        some (some rest :: none :: below) := by
      rw [indented, List.foldr_map]
      exact ih hrest _
    rw [lines, List.foldr_append, block, List.cons_append, List.foldr_cons, List.foldr_append, List.foldr_cons,
      List.foldr_nil, Option.bind_some, hclose, hindent, Option.bind_some, line, push_next htag hlayer,
      foldr_push_cells hcells, foldr_addCell_next, List.append_nil]

/-- A literal is read back from its lines. -/
theorem read?_lines {c : Composite} (h : c.Worded) : read? c.lines = some c := by
  rw [read?, foldr_push_lines h]

end Composite

namespace LayerLiteral

/-- What a literal is printed as. -/
def composite : LayerLiteral → Composite
  | last cells tag => .last (cells.map .ofField) tag
  | next cells tag layer rest => .next (cells.map .ofField) tag layer rest.composite

theorem lines_eq (l : LayerLiteral) : l.lines = l.composite.lines := by
  have hcells : ∀ cells : List FieldSlot, cellLines cells = (cells.map .ofField).map fun e :
    CellEntry => line e.text := by
    intro cells
    rw [cellLines, List.map_map]
    exact List.map_congr_left fun f _ => congrArg line (CellEntry.text_ofField f).symm
  induction l with
  | last cells tag =>
    rw [lines, composite, Composite.lines, hcells, Composite.lastText]
    simp [weave]
  | next cells tag layer rest ih =>
    rw [lines, composite, Composite.lines, hcells, ih, Composite.nextText]
    simp [weave]

end LayerLiteral

/-! ### Allocations -/

/-- The statement that makes a new object: a variable, the types of the handles from the outermost to the root handle,
and in the last one the allocation of the layers in an arena. -/
structure Allocation where
  object : Text
  handles : List Text
  package : Text
  arena : Text
  layer : Text
  literal : Composite
  deriving DecidableEq, Repr

namespace Allocation

/-- The opening braces of the handles. -/
def openings (handles : List Text) : Text := handles.flatMap (· ++ [0x7b])

def openingText (x : Allocation) : Text :=
  x.object ++ " := " ++ openings x.handles ++ "root: " ++ x.package ++ ".Allocate(" ++ x.arena ++ ", &" ++
    x.layer ++ "\x7b"

/-- The closing braces, as many as there are handles. -/
def closings (handles : List Text) : Text := List.replicate handles.length 0x7d

def closingText (x : Allocation) : Text := "\x7d)" ++ closings x.handles

def lines (x : Allocation) : List Line := block x.openingText x.literal.lines x.closingText

/-- The types of handles in front, and the pieces after them. -/
def takeHandles : List Piece → List Text × List Piece
  | .word m :: .mark 0x7b :: rest => (m :: (takeHandles rest).1, (takeHandles rest).2)
  | rest => ([], rest)

/-- Reads the line before the literal; the literal is still missing. -/
def readOpening? (t : Text) (literal : Composite) : Option Allocation :=
  match fields? [] [" := "] t with
  | some ([object], rest) =>
    match takeHandles rest.pieces with
    | (handles, .word field :: .mark 0x3a :: .mark 0x20 :: .word package :: .mark 0x2e :: .word method :: .mark 0x28 ::
        .word arena :: .mark 0x2c :: .mark 0x20 :: .mark 0x26 :: .word layer :: [.mark 0x7b]) =>
      if field = "root" ∧ method = "Allocate" then some ⟨object, handles, package, arena, layer, literal⟩ else none
    | _ => none
  | _ => none

def read? : List Line → Option Allocation
  | [] => none
  | opening :: rest => do
    let closing ← rest.getLast?
    let literal ← Composite.read? rest.dropLast
    let x ← readOpening? opening.text literal
    if closing.text = x.closingText then some x else none

structure Worded (x : Allocation) : Prop where
  object : x.object.IsWord
  handles : ∀ m ∈ x.handles, IsIdent m
  package : IsIdent x.package
  arena : IsIdent x.arena
  layer : IsIdent x.layer
  literal : x.literal.Worded

theorem takeHandles_pieces {handles : List Text} (h : ∀ m ∈ handles, IsIdent m) {field t : Text}
    (hfield : IsIdent field) : takeHandles (Text.pieces (openings handles ++ (field ++ 0x3a :: t))) =
      (handles, .word field :: .mark 0x3a :: t.pieces) := by
  induction handles with
  | nil =>
    rw [openings, List.flatMap_nil, List.nil_append, pieces_word hfield (startsApart_cons (by decide) _),
      pieces_mark (by decide)]
    rfl
  | cons m handles ih =>
    obtain ⟨hm, hhandles⟩ := List.forall_mem_cons.1 h
    have hsplit : openings (m :: handles) ++ (field ++ 0x3a :: t) =
        m ++ 0x7b :: (openings handles ++ (field ++ 0x3a :: t)) := by simp [openings]
    rw [hsplit, pieces_word hm (startsApart_cons (by decide) _), pieces_mark (by decide), takeHandles, ih hhandles]

theorem Worded.readOpening? {x : Allocation} (h : x.Worded) : readOpening? x.openingText x.literal = some x := by
  have hroot : IsIdent (Text.ofString "root") := by decide
  have hmethod : IsIdent (Text.ofString "Allocate") := by decide
  have hmarks : Text.ofString "root: " = Text.ofString "root" ++ [0x3a, 0x20] ∧
      Text.ofString ".Allocate(" = 0x2e :: (Text.ofString "Allocate" ++ [0x28]) ∧
      Text.ofString ", &" = [0x2c, 0x20, 0x26] ∧ Text.ofString "\x7b" = [0x7b] := by decide
  obtain ⟨hfirst, hcall, hnext, hlast⟩ := hmarks
  have htext : x.openingText = weave [] [x.object] [" := "] ++ (openings x.handles ++
      (Text.ofString "root" ++ 0x3a :: (0x20 :: (x.package ++ 0x2e :: (Text.ofString "Allocate" ++ 0x28 :: (x.arena ++
        0x2c :: 0x20 :: 0x26 :: (x.layer ++ [0x7b]))))))) := by
    simp [openingText, weave, hfirst, hcall, hnext, hlast]
  have hfields := fields?_weave [] [x.object] [" := "] rfl (by decide) (by simp [h.object])
  have hapart : ∀ {b : UInt8} {t : Text}, isWordPart b = false → StartsApart (b :: t) := fun hb => startsApart_cons hb _
  rw [Allocation.readOpening?, htext, hfields]
  simp only
  rw [takeHandles_pieces h.handles hroot, pieces_mark (by decide), pieces_word h.package (hapart (by decide)),
    pieces_mark (by decide), pieces_word hmethod (hapart (by decide)), pieces_mark (by decide),
    pieces_word h.arena (hapart (by decide)), pieces_mark (by decide), pieces_mark (by decide), pieces_mark (by decide),
    pieces_word h.layer (hapart (by decide)), pieces_mark (by decide)]
  simp [Text.pieces]

/-- An allocation is read back from its lines. -/
theorem read?_lines {x : Allocation} (h : x.Worded) : read? x.lines = some x := by
  have hliteral : Composite.read? (indented x.literal.lines) = some x.literal := by
    have hread := Composite.read?_lines h.literal
    rw [Composite.read?] at hread ⊢
    rw [indented, List.foldr_map]
    exact hread
  rw [lines, block, List.cons_append, read?]
  simp [hliteral, line, h.readOpening?]

end Allocation

namespace ConstructorCode

variable (c : ConstructorCode)

/-- The allocation in the factory of a meaning. -/
def allocation : Allocation :=
  ⟨c.objectVariable, c.below.reverse ++ [c.root], runtimeName, c.arenaVariable, layerName c.root, c.literal.composite⟩

theorem allocationLines_eq : c.allocationLines = c.allocation.lines := by
  have hroot : Text.ofString "\x7broot: " = [0x7b] ++ Text.ofString "root: " := by decide
  have hclose : Text.ofString "\x7d)\x7d" = Text.ofString "\x7d)" ++ [0x7d] := by decide
  have hreplicate : (0x7d : UInt8) :: List.replicate c.below.length 0x7d = List.replicate (c.below.length + 1) 0x7d :=
    rfl
  rw [allocationLines, Allocation.lines, Allocation.openingText, Allocation.closingText, allocation, wrapping,
    unwrapping, hroot, hclose, LayerLiteral.lines_eq]
  simp [Allocation.openings, Allocation.closings, List.replicate_succ]

end ConstructorCode

end Code

end MeaningForest

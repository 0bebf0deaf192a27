import MeaningForest.Code.Cell
import MeaningForest.Proofs.Captured
import MeaningForest.Proofs.Patterns

/-!
# Expressions of generated code

The expressions of generated code begin with a variable and go on with steps: a field is selected, a method is called,
or a value is asserted to have a type.

* `Code.Access.read?_text`: an expression is read back from its text if its names are words.
* `Code.CellPath.text_eq`: the path to a cell is printed as such an expression.
-/

namespace MeaningForest

open Lexeme

/-! ### Pieces of a line -/

namespace Text

/-- A piece of a line: a word, or a byte that is part of none. -/
inductive Piece where
  | word (w : Text)
  | mark (b : UInt8)
  deriving DecidableEq, Repr

def pieces : Text → List Piece
  | [] => []
  | b :: t =>
    if isWordPart b then
      match pieces t with
      | .word w :: rest => .word (b :: w) :: rest
      | rest => .word [b] :: rest
    else .mark b :: pieces t

/-- A text does not go on with a word that stands in front of it. -/
def StartsApart (t : Text) : Prop := ∀ b ∈ t.head?, isWordPart b = false

theorem startsApart_nil : StartsApart [] := nofun

theorem startsApart_cons {b : UInt8} (hb : isWordPart b = false) (t : Text) : StartsApart (b :: t) := by
  rintro _ ⟨⟩
  exact hb

theorem StartsApart.append {s t : Text} (hs : StartsApart s) (ht : StartsApart t) : StartsApart (s ++ t) := by
  cases s with
  | nil => exact ht
  | cons b s => exact hs

theorem pieces_mark {b : UInt8} (hb : isWordPart b = false) (t : Text) : pieces (b :: t) = .mark b :: pieces t := by
  rw [pieces, if_neg (by simpa using hb)]

theorem pieces_word {w t : Text} (hw : IsIdent w) (ht : StartsApart t) : pieces (w ++ t) = .word w :: pieces t := by
  obtain ⟨hw, hne⟩ := hw
  induction w with
  | nil => exact absurd rfl hne
  | cons b w ih =>
    have hb : isWordPart b := hw b (List.mem_cons_self ..)
    rw [List.cons_append, pieces, if_pos hb]
    cases w with
    | nil =>
      cases t with
      | nil => rfl
      | cons c t =>
        rw [List.nil_append, pieces_mark (ht c rfl)]
    | cons c w => rw [ih (fun x hx => hw x (List.mem_cons_of_mem _ hx)) (List.cons_ne_nil _ _)]

end Text

namespace Code

open Text

/-! ### Steps -/

/-- A step of an expression: the selection of a field, the call of a method with one argument or none, or the assertion
of a type. -/
inductive Step where
  | select (name : Text)
  | call (method argument : Text)
  | assert (type : Text)
  deriving DecidableEq, Repr

namespace Step

def text : Step → Text
  | select name => 0x2e :: name
  | call method argument => 0x2e :: (method ++ 0x28 :: (argument ++ [0x29]))
  | assert type => 0x2e :: 0x28 :: (type ++ [0x29])

/-- The type that a step mentions. -/
def type? : Step → Option Text
  | assert type => some type
  | _ => none

/-- The pieces of a step. -/
def pieces : Step → List Piece
  | select name => [.mark 0x2e, .word name]
  | call method argument =>
    [.mark 0x2e, .word method, .mark 0x28] ++ (if argument = [] then [] else [.word argument]) ++ [.mark 0x29]
  | assert type => [.mark 0x2e, .mark 0x28, .word type, .mark 0x29]

/-- The names of a step are words; an argument may be missing. -/
def Worded : Step → Prop
  | select name => IsIdent name
  | call method argument => IsIdent method ∧ argument.IsWord
  | assert type => IsIdent type

theorem startsApart_text (s : Step) : StartsApart s.text := by
  cases s <;> exact startsApart_cons (by decide) _

theorem Worded.pieces_text {s : Step} (h : s.Worded) {t : Text} (ht : StartsApart t) :
    Text.pieces (s.text ++ t) = s.pieces ++ Text.pieces t := by
  have hclose : ∀ u, StartsApart (0x29 :: u) := startsApart_cons (by decide)
  cases s with
  | select name =>
    rw [text, List.cons_append, pieces_mark (by decide), pieces_word h ht]
    rfl
  | call method argument =>
    obtain ⟨hmethod, hargument⟩ := h
    have htext : (call method argument).text ++ t = 0x2e :: (method ++ 0x28 :: (argument ++ 0x29 :: t)) := by
      simp [text]
    rw [htext, pieces_mark (by decide), pieces_word hmethod (startsApart_cons (by decide) _), pieces_mark (by decide)]
    by_cases hnone : argument = []
    · subst hnone
      rw [List.nil_append, pieces_mark (by decide)]
      rfl
    · rw [pieces_word ⟨hargument, hnone⟩ (hclose t), pieces_mark (by decide), pieces, if_neg hnone]
      rfl
  | assert type =>
    have htext : (assert type).text ++ t = 0x2e :: 0x28 :: (type ++ 0x29 :: t) := by simp [text]
    rw [htext, pieces_mark (by decide), pieces_mark (by decide), pieces_word h (hclose t), pieces_mark (by decide)]
    rfl

/-- The steps that an expression goes on with, and the pieces after them. -/
def take : List Piece → List Step × List Piece
  | .mark 0x2e :: .mark 0x28 :: .word type :: .mark 0x29 :: rest => ((take rest).1.cons (assert type), (take rest).2)
  | .mark 0x2e :: .word method :: .mark 0x28 :: .mark 0x29 :: rest =>
    ((take rest).1.cons (call method []), (take rest).2)
  | .mark 0x2e :: .word method :: .mark 0x28 :: .word argument :: .mark 0x29 :: rest =>
    ((take rest).1.cons (call method argument), (take rest).2)
  | .mark 0x2e :: .word name :: rest => ((take rest).1.cons (select name), (take rest).2)
  | rest => ([], rest)

/-- What stands after an expression: neither a further step nor the arguments of a call. -/
def Ends (ps : List Piece) : Prop := ∀ p ∈ ps.head?, p ≠ .mark 0x2e ∧ p ≠ .mark 0x28

theorem take_of_ends {ps : List Piece} (h : Ends ps) : take ps = ([], ps) := by
  rw [take.eq_def]
  split
  all_goals first | rfl | exact absurd rfl (h _ rfl).1

theorem take_select {name : Text} {ps : List Piece} (h : ps.head? ≠ some (.mark 0x28)) :
    take (.mark 0x2e :: .word name :: ps) = (select name :: (take ps).1, (take ps).2) := by
  rw [take.eq_def]
  split
  · rename_i heq
    cases heq
  · rename_i heq
    cases heq
    exact absurd rfl h
  · rename_i heq
    cases heq
    exact absurd rfl h
  · rename_i heq
    cases heq
    rfl
  · rename_i heq
    exact absurd rfl (heq name ps)

theorem take_steps {steps : List Step} (h : ∀ s ∈ steps, s.Worded) {ps : List Piece} (hps : Ends ps) :
    take (steps.flatMap pieces ++ ps) = (steps, ps) := by
  induction steps with
  | nil => exact take_of_ends hps
  | cons s steps ih =>
    obtain ⟨hs, hsteps⟩ := List.forall_mem_cons.1 h
    have ih := ih hsteps
    rw [List.flatMap_cons, List.append_assoc]
    cases s with
    | select name =>
      have hnext : (steps.flatMap pieces ++ ps).head? ≠ some (.mark 0x28) := by
        cases steps with
        | nil => exact fun heq => (hps _ heq).2 rfl
        | cons s steps => cases s <;> simp [pieces]
      rw [pieces, List.cons_append, List.cons_append, List.nil_append, take_select hnext, ih]
    | call method argument =>
      by_cases hnone : argument = []
      · subst hnone
        simp [pieces, take, ih]
      · simp [pieces, take, hnone, ih]
    | assert type => simp [pieces, take, ih]

end Step

/-! ### Expressions -/

/-- A variable and the steps from what it holds. -/
structure Access where
  var : Text
  steps : List Step
  deriving DecidableEq, Repr

namespace Access

def text (x : Access) : Text := x.var ++ x.steps.flatMap Step.text

/-- The expression that stands in front, and the pieces after it. -/
def take? : List Piece → Option (Access × List Piece)
  | .word v :: ps => some (⟨v, (Step.take ps).1⟩, (Step.take ps).2)
  | _ => none

def read? (t : Text) : Option Access :=
  match take? t.pieces with
  | some (x, []) => some x
  | _ => none

structure Worded (x : Access) : Prop where
  var : IsIdent x.var
  steps : ∀ s ∈ x.steps, s.Worded

theorem pieces_steps {steps : List Step} (h : ∀ s ∈ steps, s.Worded) {t : Text} (ht : StartsApart t) :
    Text.pieces (steps.flatMap Step.text ++ t) = steps.flatMap Step.pieces ++ Text.pieces t ∧
      StartsApart (steps.flatMap Step.text ++ t) := by
  induction steps with
  | nil => exact ⟨rfl, ht⟩
  | cons s steps ih =>
    obtain ⟨hs, hsteps⟩ := List.forall_mem_cons.1 h
    obtain ⟨hpieces, hapart⟩ := ih hsteps
    rw [List.flatMap_cons, List.flatMap_cons, List.append_assoc, List.append_assoc, hs.pieces_text hapart, hpieces]
    exact ⟨rfl, s.startsApart_text.append hapart⟩

variable {x : Access}

/-- An expression is found in front of what ends it. -/
theorem Worded.take?_pieces (h : x.Worded) {t : Text} (ht : StartsApart t) (hends : Step.Ends t.pieces) :
    take? (x.text ++ t).pieces = some (x, t.pieces) := by
  obtain ⟨hpieces, hapart⟩ := pieces_steps h.steps ht
  rw [text, List.append_assoc, pieces_word h.var hapart, hpieces, take?, Step.take_steps h.steps hends]

theorem Worded.read?_text (h : x.Worded) : read? x.text = some x := by
  have htake := h.take?_pieces startsApart_nil nofun
  rw [List.append_nil] at htake
  rw [read?, htake]
  rfl

end Access

/-! ### Paths to cells -/

namespace Step

/-- From a handle through embedded handles to the root layer. -/
def toRoot (selectors : List Text) : List Step := selectors.map select ++ [select "root", call "Get" []]

/-- From layer to layer. -/
def alongTags (tags : List Text) : List Step := tags.flatMap fun tag => [select "variant", assert tag, select "next"]

/-- From a handle to a cell of the layer that the tags lead to. -/
def toCell (selectors tags : List Text) (cell : Text) : List Step := toRoot selectors ++ alongTags tags ++ [select cell]

theorem worded_toCell {selectors tags : List Text} {cell : Text} (hselectors : ∀ s ∈ selectors, IsIdent s)
    (htags : ∀ t ∈ tags, IsIdent t) (hcell : IsIdent cell) : ∀ s ∈ toCell selectors tags cell, s.Worded := by
  simp only [toCell, toRoot, alongTags, List.mem_append, List.mem_map, List.mem_flatMap, List.mem_cons,
    List.not_mem_nil, or_false]
  rintro s (((⟨name, hname, rfl⟩ | rfl | rfl) | ⟨tag, htag, rfl | rfl | rfl⟩) | rfl)
  · exact hselectors name hname
  · exact ⟨by decide, by decide⟩
  · exact ⟨⟨by decide, by decide⟩, by decide⟩
  · exact ⟨by decide, by decide⟩
  · exact htags tag htag
  · exact ⟨by decide, by decide⟩
  · exact hcell

end Step

theorem rootLayer_eq (selectors : List Text) :
    rootLayer selectors = (⟨receiverName, Step.toRoot selectors⟩ : Access).text := by
  have hend : Text.ofString ".root.Get()" = [Step.select "root", Step.call "Get" []].flatMap Step.text := by decide
  have hselect : selections selectors = (selectors.map Step.select).flatMap Step.text := by
    rw [List.flatMap_map]
    rfl
  rw [rootLayer, Access.text, Step.toRoot, List.flatMap_append, hselect, hend, List.append_assoc]

theorem tagStep_eq (tag : Text) :
    tagStep tag = [Step.select "variant", Step.assert tag, Step.select "next"].flatMap Step.text := by
  have hfirst : Text.ofString ".variant.(" = 0x2e :: Text.ofString "variant" ++ [0x2e, 0x28] := by decide
  have hlast : Text.ofString ").next" = 0x29 :: 0x2e :: Text.ofString "next" := by decide
  rw [tagStep, hfirst, hlast]
  simp [Step.text]

/-- The path to a cell is the text of an expression. -/
theorem CellPath.text_eq (selectors tags : List Text) (cell : Text) :
    (⟨rootLayer selectors, tags, cell⟩ : CellPath).text =
      (⟨receiverName, Step.toCell selectors tags cell⟩ : Access).text := by
  have htags : tags.flatMap tagStep = (Step.alongTags tags).flatMap Step.text := by
    rw [Step.alongTags, List.flatMap_assoc]
    exact congrArg (List.flatMap · tags) (funext tagStep_eq)
  rw [CellPath.text, rootLayer_eq, htags, Access.text, Access.text, Step.toCell]
  simp [selections, Step.text]

end Code

end MeaningForest

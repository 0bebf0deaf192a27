import MeaningForest.Proofs.Literals
import Mathlib.Data.List.DropRight

/-!
# Calls in generated functions

The initializer of a meaning is a list of calls, each with a handle in front of other arguments.  The factory begins
with an allocation and ends by returning the variable of the new object.

* `Code.HandleCall.read?_text`: the function, the variable and the selected handles of a call are read back from its
  text.
* `Code.FactoryBody.read?_lines`, `Code.readInitializer?_lines`: the bodies are read back from the lines of the
  functions.
-/

namespace MeaningForest

open Lexeme

/-! ### Brackets -/

namespace Text

theorem pieces_append_mark {b : UInt8} (hb : isWordPart b = false) (s t : Text) :
    pieces (s ++ b :: t) = pieces s ++ .mark b :: pieces t := by
  induction s with
  | nil => exact pieces_mark hb t
  | cons c s ih =>
    rw [List.cons_append, pieces, pieces, ih]
    split
    · rcases pieces s with _ | ⟨w | d, ps⟩ <;> rfl
    · rfl

theorem mem_of_mark_mem_pieces {b : UInt8} {s : Text} (h : .mark b ∈ pieces s) : b ∈ s := by
  induction s with
  | nil => cases h
  | cons c s ih =>
    rw [pieces] at h
    split at h
    · refine List.mem_cons_of_mem c (ih ?_)
      rcases hs : pieces s with _ | ⟨w | d, ps⟩ <;> rw [hs] at h <;> simp at h ⊢ <;> exact h
    · rcases List.mem_cons.1 h with heq | h
      · obtain rfl := Piece.mark.inj heq
        exact List.mem_cons_self ..
      · exact List.mem_cons_of_mem c (ih h)

/-- The pieces after a group in square brackets that a text begins with, if it does. -/
def skipBrackets : List Piece → List Piece
  | .mark 0x5b :: ps => (ps.dropWhile (· ≠ .mark 0x5d)).tail
  | ps => ps

theorem skipBrackets_pieces {s : Text} (h : 0x5d ∉ s) (t : Text) :
    skipBrackets (pieces (0x5b :: (s ++ 0x5d :: t))) = pieces t := by
  have hpass : ∀ p ∈ pieces s, decide (p ≠ .mark 0x5d) = true := by
    intro p hp
    rw [decide_eq_true_eq]
    rintro rfl
    exact h (mem_of_mark_mem_pieces hp)
  rw [pieces_mark (by decide), skipBrackets, pieces_append_mark (by decide), List.dropWhile_append_of_pos hpass]
  simp

end Text

namespace Code

open Text

/-! ### Calls -/

/-- A call of a function with a handle: that of a variable, or one that is embedded in it. -/
structure Activation where
  function : Text
  var : Text
  selectors : List Text
  deriving DecidableEq, Repr

def Step.field? : Step → Option Text
  | select name => some name
  | _ => none

/-- Reads a call up to the end of its first argument. -/
def Activation.read? (t : Text) : Option Activation :=
  match t.pieces with
  | .word function :: ps =>
    match skipBrackets ps with
    | .mark 0x28 :: ps =>
      match Access.take? ps with
      | some (x, .mark b :: _) =>
        if b = 0x29 ∨ b = 0x2c then (x.steps.mapM Step.field?).map (⟨function, x.var, ·⟩) else none
      | _ => none
    | _ => none
  | _ => none

theorem mapM_field? (selectors : List Text) : (selectors.map Step.select).mapM Step.field? = some selectors := by
  induction selectors with
  | nil => rfl
  | cons s selectors ih => rw [List.map_cons, List.mapM_cons, ih]; rfl

namespace HandleCall

variable {c : HandleCall}

def activation (c : HandleCall) : Activation := ⟨c.function, c.var, c.selectors⟩

/-- What the reader needs: the names are words, and type arguments have no bracket inside of theirs. -/
structure Worded (c : HandleCall) : Prop where
  function : IsIdent c.function
  var : IsIdent c.var
  selectors : ∀ s ∈ c.selectors, IsIdent s
  typeArgs : c.typeArgs = [] ∨ ∃ s, 0x5d ∉ s ∧ c.typeArgs = 0x5b :: (s ++ [0x5d])

theorem Worded.read?_text (h : c.Worded) : Activation.read? c.text = some c.activation := by
  have hmarks : Text.ofString "(" = [0x28] ∧ Text.ofString ")" = [0x29] ∧ Text.ofString ", " = [0x2c, 0x20] := by decide
  obtain ⟨hopen, hclose, hcomma⟩ := hmarks
  have hselections : selections c.selectors = (c.selectors.map Step.select).flatMap Step.text := by
    rw [List.flatMap_map]
    rfl
  -- what follows the handle begins with a mark that ends it
  obtain ⟨b, rest, hb, htext⟩ : ∃ b rest, (b = 0x29 ∨ b = 0x2c) ∧ c.text = c.function ++ (c.typeArgs ++
      0x28 :: ((⟨c.var, c.selectors.map .select⟩ : Access).text ++ b :: rest)) := by
    rw [text, andMore, hselections, hopen, hclose, hcomma]
    split
    · exact ⟨0x29, [], .inl rfl, by simp [Access.text]⟩
    · exact ⟨0x2c, 0x20 :: (c.arguments ++ [0x29]), .inr rfl, by simp [Access.text]⟩
  have hpart : isWordPart b = false := by rcases hb with rfl | rfl <;> decide
  have hworded : (⟨c.var, c.selectors.map .select⟩ : Access).Worded := by
    refine ⟨h.var, fun s hs => ?_⟩
    obtain ⟨name, hname, rfl⟩ := List.mem_map.1 hs
    exact h.selectors name hname
  have hends : Step.Ends (Text.pieces (b :: rest)) := by
    rw [pieces_mark hpart]
    rintro _ ⟨⟩
    rcases hb with rfl | rfl <;> decide
  have htake := hworded.take?_pieces (startsApart_cons hpart rest) hends
  rw [pieces_mark hpart] at htake
  have hapart : StartsApart (c.typeArgs ++
      0x28 :: ((⟨c.var, c.selectors.map .select⟩ : Access).text ++ b :: rest)) := by
    rcases h.typeArgs with heq | ⟨s, -, heq⟩ <;> rw [heq] <;> exact startsApart_cons (by decide) _
  have hskip : skipBrackets (c.typeArgs ++
      0x28 :: ((⟨c.var, c.selectors.map .select⟩ : Access).text ++ b :: rest)).pieces =
      .mark 0x28 :: ((⟨c.var, c.selectors.map .select⟩ : Access).text ++ b :: rest).pieces := by
    rcases h.typeArgs with heq | ⟨s, hs, heq⟩
    · rw [heq, List.nil_append, pieces_mark (by decide)]
      rfl
    · rw [heq, List.cons_append, List.append_assoc, List.singleton_append, skipBrackets_pieces hs,
        pieces_mark (by decide)]
  rw [Activation.read?, htext, pieces_word h.function hapart]
  simp only [hskip, htake, if_pos hb, mapM_field?, Option.map_some, activation]

end HandleCall

/-! ### Bodies -/

/-- The calls that lines consist of. -/
def readCalls? (lines : List Line) : Option (List Activation) := lines.mapM (Activation.read? ·.text)

theorem readCalls?_lines {calls : List HandleCall} (h : ∀ c ∈ calls, c.Worded) :
    readCalls? (indented (calls.map fun c => line c.text)) = some (calls.map (·.activation)) := by
  induction calls with
  | nil => rfl
  | cons c calls ih =>
    obtain ⟨hc, hcalls⟩ := List.forall_mem_cons.1 h
    have hsplit : indented ((c :: calls).map fun c => line c.text) =
        ⟨c.text, 1⟩ :: indented (calls.map fun c => line c.text) := rfl
    have ih := ih hcalls
    rw [readCalls?] at ih
    rw [hsplit, readCalls?, List.mapM_cons, hc.read?_text, ih]
    rfl

/-- Reads the calls of an initializer, which are all of its body. -/
def readInitializer? (lines : List Line) : Option (List Activation) := readCalls? lines.tail.dropLast.dropLast

theorem readInitializer?_lines {calls : List HandleCall} (h : ∀ c ∈ calls, c.Worded) (head : Text) :
    readInitializer? (braced head (calls.map fun c => line c.text)) = some (calls.map (·.activation)) := by
  have hlines : braced head (calls.map fun c => line c.text) = line (head ++ " \x7b") ::
      (indented (calls.map fun c => line c.text) ++ [line "\x7d"] ++ [blank]) := rfl
  rw [readInitializer?, hlines, List.tail_cons, List.dropLast_concat, List.dropLast_concat, readCalls?_lines h]

/-- The body of a factory: an allocation, calls, and the variable that is returned. -/
structure FactoryBody where
  allocation : Allocation
  calls : List Activation
  result : Text
  deriving DecidableEq, Repr

namespace FactoryBody

def isCall (l : Line) : Bool := (Activation.read? l.text).isSome

/-- Reads a factory with a comment in front.  The calls are those lines before the last that can be read as calls. -/
def read? (lines : List Line) : Option FactoryBody := do
  let body := lines.tail.tail.dropLast.dropLast
  let last ← body.getLast?
  let allocation ← Allocation.read? (body.dropLast.rdropWhile isCall)
  let calls ← readCalls? (body.dropLast.rtakeWhile isCall)
  let result ← last.text.dropPrefix? "return "
  return ⟨allocation, calls, result⟩

theorem read?_indented (x : Allocation) : Allocation.read? (indented x.lines) = Allocation.read? x.lines := by
  have hliteral : ∀ ls, Composite.read? (indented ls) = Composite.read? ls := by
    intro ls
    rw [Composite.read?, Composite.read?, indented, List.foldr_map]
  have hlines : x.lines = line x.openingText :: (indented x.literal.lines ++ [line x.closingText]) := rfl
  have hindented : indented x.lines = ⟨x.openingText, 1⟩ :: (indented (indented x.literal.lines) ++
      [⟨x.closingText, 1⟩]) := by
    rw [hlines]
    simp [indented, line]
  rw [hindented, hlines, Allocation.read?, Allocation.read?]
  simp [hliteral, line]

theorem read?_lines {x : Allocation} (hx : x.Worded) {calls : List HandleCall} (hcalls : ∀ c ∈ calls, c.Worded)
    (comment head result : Text) :
    read? (line comment :: braced head (x.lines ++ calls.map (fun c => line c.text) ++
      [line (Text.ofString "return " ++ result)])) = some ⟨x, calls.map (·.activation), result⟩ := by
  have hlines : line comment :: braced head (x.lines ++ calls.map (fun c => line c.text) ++
      [line (Text.ofString "return " ++ result)]) = line comment :: line (head ++ " \x7b") ::
        (indented x.lines ++ indented (calls.map fun c => line c.text) ++ [⟨Text.ofString "return " ++ result, 1⟩] ++
          [line "\x7d"] ++ [blank]) := by
    simp [braced, block, indented, line]
  have hall : ∀ l ∈ indented (calls.map fun c => line c.text), isCall l = true := by
    intro l hl
    rw [indented, List.map_map] at hl
    obtain ⟨c, hc, rfl⟩ := List.mem_map.1 hl
    exact Option.isSome_of_eq_some (hcalls c hc).read?_text
  -- the last line of the allocation is no call
  obtain ⟨opening, closing, hclosing, hnot⟩ : ∃ opening closing, indented x.lines = opening ++ [closing] ∧
      isCall closing = false := by
    refine ⟨⟨x.openingText, 1⟩ :: indented (indented x.literal.lines), ⟨x.closingText, 1⟩, ?_, ?_⟩
    · simp [Allocation.lines, block, indented, line]
    · have htext : x.closingText = 0x7d :: 0x29 :: Allocation.closings x.handles := rfl
      rw [isCall, htext, Activation.read?, pieces_mark (by decide)]
      rfl
  have hdrop : (indented x.lines ++ indented (calls.map fun c => line c.text)).rdropWhile isCall =
    indented x.lines := by
    generalize indented (calls.map fun c => line c.text) = more at hall
    induction more using List.reverseRecOn with
    | nil => rw [List.append_nil, hclosing, List.rdropWhile_concat_neg _ _ _ (by simp [hnot])]
    | append_singleton more l ih =>
      rw [← List.append_assoc, List.rdropWhile_concat_pos _ _ _ (hall l (by simp))]
      exact ih fun l hl => hall l (List.mem_append_left _ hl)
  have htake : (indented x.lines ++ indented (calls.map fun c => line c.text)).rtakeWhile isCall =
      indented (calls.map fun c => line c.text) := by
    have hwhole : ∀ ls : List Line, ls.rdropWhile isCall ++ ls.rtakeWhile isCall = ls :=
      fun _ => List.rdropWhile_append_rtakeWhile
    have hsplit := hwhole (indented x.lines ++ indented (calls.map fun c => line c.text))
    rw [hdrop] at hsplit
    exact List.append_cancel_left hsplit
  have hresult : (Text.ofString "return " ++ result).dropPrefix? "return " = some result := dropPrefix?_append _ _
  rw [hlines, read?]
  simp only [List.tail_cons, List.dropLast_concat, List.getLast?_concat, hdrop, htake, read?_indented,
    Allocation.read?_lines hx, readCalls?_lines hcalls, hresult, bind, Option.bind, pure]

end FactoryBody

end Code

end MeaningForest

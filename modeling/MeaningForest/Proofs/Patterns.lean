import MeaningForest.Proofs.Words
import Mathlib.Data.List.Basic

/-!
# Names in generated lines

A generated line is made of fixed pieces with names between them.  If the names are words and none of the pieces begins
like one, then the names can be read back from the line (`Text.fields?_weave`).
-/

namespace MeaningForest.Text

open Lexeme

/-- Pieces with names between them: after the first piece each name stands in front of a piece. -/
def weave (first : Text) : List Text → List Text → Text
  | name :: names, piece :: pieces => first ++ (name ++ weave piece names pieces)
  | _, _ => first

/-- Reads the names between pieces, and gives the text that is left after the last piece. -/
def fields? (first : Text) : List Text → Text → Option (List Text × Text)
  | [], t => (t.dropPrefix? first).map ([], ·)
  | piece :: pieces, t =>
    (t.dropPrefix? first).bind fun u =>
      (fields? piece pieces (u.dropWhile isWordPart)).map fun r => (u.takeWhile isWordPart :: r.1, r.2)

/-- A piece ends a name: it begins with a byte that is no part of a word. -/
def EndsName (piece : Text) : Prop := ∃ b ∈ piece.head?, isWordPart b = false

instance : DecidablePred EndsName := fun piece =>
  match piece with
  | [] => isFalse (by simp [EndsName])
  | b :: t => decidable_of_iff (isWordPart b = false) (by simp [EndsName])

theorem dropPrefix?_append (s t : Text) : (s ++ t).dropPrefix? s = some t :=
  List.dropPrefix?_append_of_beq t (beq_self_eq_true s)

theorem IsWord.takeWhile_append {name t : Text} (h : IsWord name) (ht : EndsName t) :
    (name ++ t).takeWhile isWordPart = name ∧ (name ++ t).dropWhile isWordPart = t := by
  obtain ⟨b, hb, hpart⟩ := ht
  obtain ⟨u, rfl⟩ := List.head?_eq_some_iff.1 hb
  have hall : ∀ a ∈ name, isWordPart a = true := h
  rw [List.takeWhile_append_of_pos hall, List.dropWhile_append_of_pos hall]
  simp [hpart]

theorem endsName_weave {first : Text} (h : EndsName first) (names pieces : List Text) (t : Text) :
    EndsName (weave first names pieces ++ t) := by
  obtain ⟨b, hb, hpart⟩ := h
  obtain ⟨u, rfl⟩ := List.head?_eq_some_iff.1 hb
  rw [weave.eq_def]
  split <;> exact ⟨b, rfl, hpart⟩

/-- Names between pieces are read back if they are words. -/
theorem fields?_weave (first : Text) (names pieces : List Text) (hlength : names.length = pieces.length)
    (hpieces : ∀ piece ∈ pieces, EndsName piece) (hnames : ∀ name ∈ names, IsWord name) (t : Text) :
    fields? first pieces (weave first names pieces ++ t) = some (names, t) := by
  induction names generalizing first pieces with
  | nil =>
    obtain rfl := List.length_eq_zero_iff.1 hlength.symm
    rw [fields?, weave, dropPrefix?_append]
    · rfl
    · simp
  | cons name names ih =>
    obtain ⟨piece, pieces, rfl⟩ := List.exists_cons_of_length_eq_add_one hlength.symm
    obtain ⟨hname, hnames⟩ := List.forall_mem_cons.1 hnames
    obtain ⟨hpiece, hpieces⟩ := List.forall_mem_cons.1 hpieces
    obtain ⟨htake, hdrop⟩ := hname.takeWhile_append (endsName_weave hpiece names pieces t)
    rw [fields?, weave, List.append_assoc, dropPrefix?_append, List.append_assoc, Option.bind_some, htake, hdrop,
      ih piece pieces (Nat.succ.inj hlength) hpieces hnames]
    rfl

theorem fields?_of_eq {first t u : Text} {names pieces : List Text} (h : t = weave first names pieces ++ u)
    (hlength : names.length = pieces.length) (hpieces : ∀ piece ∈ pieces, EndsName piece)
    (hnames : ∀ name ∈ names, IsWord name) : fields? first pieces t = some (names, u) := by
  rw [h, fields?_weave first names pieces hlength hpieces hnames]

end MeaningForest.Text

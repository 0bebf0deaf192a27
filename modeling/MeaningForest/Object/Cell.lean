/-!
# Cells of objects

A field of an object is kept in a cell.  A value cell is copied with its object; a shared cell has an identity, so that
several objects can use the same one.

* `SharedCells.borrow_replace`: after a replacement the cell has the new content, and the old one was returned.
-/

namespace MeaningForest

/-- A cell that is copied with its object. -/
structure ValueCell (α : Type) where
  content : α
  deriving DecidableEq, Repr

/-- The identity of a shared cell. -/
structure SharedCell where
  number : Nat
  deriving DecidableEq, Repr

/-- The contents of all shared cells of one type. -/
structure SharedCells (α : Type) where
  contents : List α := []
  deriving DecidableEq, Repr

namespace SharedCells

variable {α : Type}

/-- A new cell. -/
def create (s : SharedCells α) (v : α) : SharedCell × SharedCells α :=
  (⟨s.contents.length⟩, ⟨s.contents ++ [v]⟩)

/-- The content of a cell. -/
def borrow? (s : SharedCells α) (c : SharedCell) : Option α := s.contents[c.number]?

/-- Changes the content of a cell. -/
def update (s : SharedCells α) (c : SharedCell) (f : α → α) : SharedCells α := ⟨s.contents.modify c.number f⟩

/-- Replaces the content of a cell and gives back the old one. -/
def replace (s : SharedCells α) (c : SharedCell) (v : α) : Option α × SharedCells α :=
  (s.borrow? c, s.update c fun _ => v)

theorem borrow_replace (s : SharedCells α) (c : SharedCell) (v : α) (h : (s.borrow? c).isSome) :
    (s.replace c v).2.borrow? c = some v ∧ (s.replace c v).1 = s.borrow? c := by
  obtain ⟨old, h⟩ := Option.isSome_iff_exists.1 h
  simp only [borrow?] at h
  simp [replace, update, borrow?, h]

end SharedCells

end MeaningForest

import MeaningForest.Fault

/-!
# Arenas

An arena owns values and hands out handles to them.  Releasing an arena drops all its values at once and starts a new
generation, so that every handle made before is refused from then on.

* `Arena.read_allocate`: a new handle reads the value that was stored.
* `Arena.read_release`: after a release no handle of the earlier generation can be read.
-/

namespace MeaningForest

/-- The element of a list at an index. -/
def elementAt {α : Type} (l : List α) (i : Int) : Except Fault α :=
  match i with
  | .ofNat n =>
    match l[n]? with
    | some a => .ok a
    | none => .error (.indexOutOfRange n l.length)
  | .negSucc n => .error (.indexOutOfRange (.negSucc n) l.length)

/-- A reference to a value of an arena.  Handles are compared by arena, index and generation, never by the value. -/
structure Handle where
  /-- The identity of the arena. -/
  arena : Nat
  index : UInt32
  generation : UInt32
  deriving DecidableEq, Repr

/-- An owner of values. -/
structure Arena (α : Type) where
  /-- The identity of the arena. -/
  id : Nat
  slots : List α := []
  /-- The number of releases so far, counted from one. -/
  generation : UInt32 := 1
  deriving DecidableEq, Repr

namespace Arena

variable {α : Type}

/-- The number of values. -/
def size (a : Arena α) : Nat := a.slots.length

/-- Stores a value. -/
def allocate (a : Arena α) (v : α) : Handle × Arena α :=
  (⟨a.id, a.slots.length.toUInt32, a.generation⟩, { a with slots := a.slots ++ [v] })

/-- The value of a handle; there is none for the empty handle. -/
def read (a : Arena α) (h : Option Handle) : Except Fault α :=
  match h with
  | none => .error .foreignHandle
  | some h =>
    if h.arena ≠ a.id then .error .foreignHandle
    else if h.generation ≠ a.generation then
      .error (.staleHandle h.index.toNat h.generation.toNat a.generation.toNat)
    else match a.slots[h.index.toNat]? with
      | some v => .ok v
      | none => .error (.staleHandle h.index.toNat h.generation.toNat a.generation.toNat)

/-- Replaces the value of a handle. -/
def write (a : Arena α) (h : Option Handle) (v : α) : Except Fault (Arena α) := do
  discard (a.read h)
  match h with
  | none => .error .foreignHandle
  | some h => .ok { a with slots := a.slots.set h.index.toNat v }

/-- Drops all values and starts a new generation. -/
def release (a : Arena α) : Arena α := { a with slots := [], generation := a.generation + 1 }

theorem read_allocate (a : Arena α) (v : α) (h : a.size < 4294967296) :
    (a.allocate v).2.read (some (a.allocate v).1) = .ok v := by
  have : a.slots.length % 4294967296 = a.slots.length := Nat.mod_eq_of_lt h
  simp [allocate, read, this]

theorem read_release (a : Arena α) (h : Handle) (ha : h.arena = a.id) (hg : h.generation = a.generation) :
    a.release.read (some h) =
      .error (.staleHandle h.index.toNat h.generation.toNat (a.generation + 1).toNat) := by
  have hne : h.generation ≠ a.generation + 1 := by rw [hg]; grind
  simp [release, read, ha, hne]

end Arena

end MeaningForest

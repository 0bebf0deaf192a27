import MeaningForest.Effect

/-!
# Objects and their arenas

At run time the objects of an arena live until the arena is released.  A handle refers to one object and does not keep
it alive; two handles are equal exactly if they refer to the same object of the same arena.

The memory of an object that no arena holds may be collected.  Where this matters, `live` tells the objects that were
not collected.

* `ObjectStore.get_allocate`: a new handle refers to the new object.
* `ObjectStore.get_release`: no handle of a released arena can be used.
-/

namespace MeaningForest

/-- An arena of a running program. -/
structure ObjectArena where
  /-- The number of objects. -/
  size : Nat := 0
  isReleased : Bool := false
  deriving DecidableEq, Repr

/-- A reference to an object. -/
structure ObjectHandle where
  arena : Nat
  object : Nat
  deriving DecidableEq, Repr

/-- The arenas and objects of a running program. -/
structure ObjectStore (α : Type) where
  arenas : List ObjectArena := []
  /-- The contents of all objects that were made. -/
  objects : List α := []
  deriving DecidableEq, Repr

namespace ObjectStore

variable {α : Type} (s : ObjectStore α)

/-- Opens a new arena. -/
def openArena : Nat × ObjectStore α := (s.arenas.length, { s with arenas := s.arenas ++ [{}] })

/-- The number of objects of an arena. -/
def size (arena : Nat) : Nat := ((s.arenas[arena]?).map (·.size)).getD 0

/-- Whether an arena was released. -/
def isReleased (arena : Nat) : Bool := ((s.arenas[arena]?).map (·.isReleased)).getD true

/-- Releases all objects of an arena. -/
def release (arena : Nat) : ObjectStore α := { s with arenas := s.arenas.set arena ⟨0, true⟩ }

/-- Makes an object that no arena holds. -/
def create (v : α) : Nat × ObjectStore α := (s.objects.length, { s with objects := s.objects ++ [v] })

/-- Whether an object was made and not collected. -/
def isPresent (live : Nat → Bool) (object : Nat) : Bool := live object && object < s.objects.length

/-- The object of a handle. -/
def find (live : Nat → Bool) (h : Option ObjectHandle) : Except Fault Nat :=
  match h with
  | none => .error .zeroHandle
  | some h =>
    if s.isReleased h.arena then .error .outlivedArena
    else if s.isPresent live h.object then .ok h.object
    else .error .outlivedArena

/-- Whether a handle can be used. -/
def isUsable (live : Nat → Bool) (h : Option ObjectHandle) : Bool :=
  match h with
  | none => false
  | some h => !s.isReleased h.arena && s.isPresent live h.object

/-- The content of the object of a handle. -/
def read (live : Nat → Bool) (h : Option ObjectHandle) : Except Fault α := do
  let object ← s.find live h
  match s.objects[object]? with
  | some v => .ok v
  | none => .error .outlivedArena

end ObjectStore

/-! ### Changes that can fail -/

namespace ObjectEdit

variable {α : Type}

/-- Puts an object into an arena. -/
def hold (arena object : Nat) : Effect (ObjectStore α) ObjectHandle := do
  Effect.ask fun s => if s.isReleased arena then .error .releasedArena else .ok ()
  Effect.update fun s =>
    (⟨arena, object⟩, { s with arenas := s.arenas.modify arena fun a => { a with size := a.size + 1 } })

/-- Changes the content of the object of a handle. -/
def write (live : Nat → Bool) (h : Option ObjectHandle) (f : α → α) : Effect (ObjectStore α) Unit := do
  let object ← Effect.ask fun s => s.find live h
  Effect.change fun s => { s with objects := s.objects.modify object f }

theorem atomic_hold (arena object : Nat) : (hold arena object : Effect (ObjectStore α) ObjectHandle).Atomic :=
  Effect.Atomic.ask_bind fun _ => Effect.atomic_update _

theorem atomic_write (live : Nat → Bool) (h : Option ObjectHandle) (f : α → α) : (write live h f).Atomic :=
  Effect.Atomic.ask_bind fun _ => Effect.atomic_update _

end ObjectEdit

namespace ObjectStore

variable {α : Type} (s : ObjectStore α)

/-- Puts an object into an arena. -/
def hold (arena object : Nat) : Except Fault (ObjectHandle × ObjectStore α) := (ObjectEdit.hold arena object).result s

/-- Puts a new object into an arena. -/
def allocate (arena : Nat) (v : α) : Except Fault (ObjectHandle × ObjectStore α) :=
  let (object, s) := s.create v
  s.hold arena object

/-- Changes the content of the object of a handle. -/
def write (live : Nat → Bool) (h : Option ObjectHandle) (f : α → α) : Except Fault (ObjectStore α) :=
  (ObjectEdit.write live h f).outcome s

/-! ### Nothing collected -/

/-- The content of the object of a handle, when nothing was collected. -/
def get (h : Option ObjectHandle) : Except Fault α := s.read (fun _ => true) h

/-- Whether a handle can be used, when nothing was collected. -/
def isValid (h : Option ObjectHandle) : Bool := s.isUsable (fun _ => true) h

/-- Changes the content of the object of a handle, when nothing was collected. -/
def modify (h : Option ObjectHandle) (f : α → α) : Except Fault (ObjectStore α) := s.write (fun _ => true) h f

/-! ### Results -/

variable {s} {arena object : Nat} {live : Nat → Bool}

theorem hold_def : s.hold arena object = if s.isReleased arena then .error .releasedArena
    else .ok (⟨arena, object⟩, { s with arenas := s.arenas.modify arena fun a => { a with size := a.size + 1 } }) := by
  rw [hold, ObjectEdit.hold, Effect.result_bind, Effect.result_ask]
  split <;> rfl

theorem hold_eq_ok {h : ObjectHandle} {s' : ObjectStore α} : s.hold arena object = .ok (h, s') ↔
    s.isReleased arena = false ∧ h = ⟨arena, object⟩ ∧
      s' = { s with arenas := s.arenas.modify arena fun a => { a with size := a.size + 1 } } := by
  rw [hold_def]
  cases s.isReleased arena <;> simp [eq_comm]

theorem find_eq_ok {h : Option ObjectHandle} : s.find live h = .ok object ↔
    ∃ arena, h = some ⟨arena, object⟩ ∧ s.isReleased arena = false ∧ s.isPresent live object := by
  constructor
  · intro hfind
    rw [find.eq_def] at hfind
    split at hfind
    · cases hfind
    · rename_i h
      split at hfind
      · cases hfind
      · rename_i hopen
        split at hfind
        · rename_i hpresent
          obtain rfl := Except.ok.inj hfind
          exact ⟨h.arena, rfl, by simpa using hopen, hpresent⟩
        · cases hfind
  · rintro ⟨arena, rfl, hopen, hpresent⟩
    simp [find, hopen, hpresent]

theorem read_eq_ok {h : Option ObjectHandle} {v : α} : s.read live h = .ok v ↔
    ∃ object, s.find live h = .ok object ∧ s.objects[object]? = some v := by
  rw [read]
  cases s.find live h with
  | error e => simp [bind, Except.bind]
  | ok object => cases hv : s.objects[object]? <;> simp [bind, Except.bind, hv]

/-- Reading is to find the object and to take its content. -/
theorem read_some (s : ObjectStore α) (live : Nat → Bool) (h : ObjectHandle) : s.read live (some h) =
    (s.find live (some h)).bind fun _ => (s.objects[h.object]?).elim (.error .outlivedArena) .ok := by
  rw [read]
  cases hfind : s.find live (some h) with
  | error e => rfl
  | ok object =>
    obtain ⟨arena, harena, -, -⟩ := find_eq_ok.1 hfind
    obtain rfl := Option.some.inj harena
    simp only [bind, Except.bind]
    cases s.objects[object]? <;> rfl

theorem write_eq_ok {h : Option ObjectHandle} {f : α → α} {s' : ObjectStore α} : s.write live h f = .ok s' ↔
    ∃ object, s.find live h = .ok object ∧ s' = { s with objects := s.objects.modify object f } := by
  rw [write, ObjectEdit.write, Effect.outcome, Effect.result_bind, Effect.result_ask]
  cases s.find live h with
  | error e => simp [Except.map, Except.bind]
  | ok object => simp [Except.map, Except.bind, eq_comm]

theorem isUsable_iff_find {h : Option ObjectHandle} : s.isUsable live h ↔ ∃ object, s.find live h = .ok object := by
  cases h with
  | none => simp [isUsable, find]
  | some h =>
    cases hrel : s.isReleased h.arena <;> cases hlive : s.isPresent live h.object <;>
      simp [isUsable, find, hrel, hlive]

theorem find_congr {s' : ObjectStore α} {h : ObjectHandle} (hrel : s'.isReleased h.arena = s.isReleased h.arena)
    (hpresent : s'.isPresent live h.object = s.isPresent live h.object) :
    s'.find live (some h) = s.find live (some h) := by
  rw [find, find, hrel, hpresent]

theorem isReleased_of_getElem? {a : ObjectArena} (ha : s.arenas[arena]? = some a) :
    s.isReleased arena = a.isReleased := by
  rw [isReleased, ha]
  rfl

@[simp]
theorem isReleased_hold (arena other : Nat) : ({ s with
    arenas := s.arenas.modify arena fun a => { a with size := a.size + 1 } } : ObjectStore α).isReleased other =
      s.isReleased other := by
  simp only [isReleased, List.getElem?_modify]
  cases s.arenas[other]? with
  | none => rfl
  | some a =>
    by_cases h : arena = other
    · simp [h]
    · simp [h]

theorem get_allocate (arena : Nat) (v : α) {h : ObjectHandle} {s' : ObjectStore α}
    (ha : s.allocate arena v = .ok (h, s')) : s'.get (some h) = .ok v := by
  obtain ⟨hopen, rfl, rfl⟩ := hold_eq_ok.1 ha
  refine read_eq_ok.2 ⟨s.objects.length, find_eq_ok.2 ⟨arena, rfl, ?_, ?_⟩, ?_⟩
  · rw [isReleased_hold]
    exact hopen
  · simp [isPresent]
  · simp

theorem get_release (arena : Nat) (h : ObjectHandle) (ha : h.arena = arena) :
    (s.release arena).get (some h) = .error .outlivedArena := by
  have : (s.release arena).isReleased h.arena = true := by
    simp only [isReleased, release, ha, List.getElem?_set_self']
    rcases h : s.arenas[arena]? with _ | a <;> simp
  simp [get, read, find, this, bind, Except.bind]

end ObjectStore

end MeaningForest

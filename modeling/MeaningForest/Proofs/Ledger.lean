import MeaningForest.Proofs.Entries

/-!
# The life of symbols

A symbol can be used from its creation until its arena is released.  A ledger is kept beside a symbol table: it lists
the symbols that were created, what is known of them, and the releases (`Ledger`).  What the operations of the table
answer can be read off the ledger alone.

* `Ledger.Sound.step`: every operation keeps the table and its ledger together.
* `Ledger.run_faithful`: in every run all symbols are different, and an operation succeeds exactly for the symbols that
  the ledger knows to be alive and of the right kind; where it does not succeed, nothing changes.

Generations and indices are counted in 32 bits, so there is a bound on the releases and on the symbols of an arena
(`Ledger.WithinBounds`).
-/

namespace MeaningForest

/-! ### Operations -/

/-- A piece of what is known of a symbol. -/
inductive Datum where
  | kind
  | name
  | inherits
  | submeanings
  | methods
  | fields
  | isRef
  | type
  | init
  | definedIn
  | doc
  | mapping
  deriving DecidableEq, Repr

/-- The answer of an operation. -/
inductive Answer where
  | nothing
  | kind (k : SymbolKind)
  | text (x : Text)
  | flag (b : Bool)
  | symbol (s : Symbol)
  | symbols (l : List Symbol)
  | members (m : OrderedMap Text Symbol)
  | overrides (m : OverrideTree Symbol Text)
  deriving DecidableEq, Repr

/-- What is needed to create a symbol. -/
inductive NewSlot where
  | meaning (name : Text)
  | field (d : FieldSlot)
  | method (name : Text) (definedIn : Symbol) (doc : Text)
  deriving DecidableEq, Repr

/-- A change of what is known of a meaning or a method. -/
inductive SlotChange where
  | parent (p : Symbol)
  | submeaning (sub : Symbol)
  | field (key : Text) (f : Symbol)
  | method (key : Text) (m : Symbol)
  | override (path : List Symbol) (code : Text)
  deriving DecidableEq, Repr

/-- The piece that a change is about. -/
def SlotChange.datum : SlotChange → Datum
  | parent _ => .inherits
  | submeaning _ => .submeanings
  | field _ _ => .fields
  | method _ _ => .methods
  | override _ _ => .mapping

/-- An operation of a symbol table. -/
inductive TableOp where
  | openArena
  | create (arena : Nat) (new : NewSlot)
  | release (arena : Nat)
  | change (s : Symbol) (c : SlotChange)
  | ask (s : Symbol) (q : Datum)
  deriving DecidableEq, Repr

def NewSlot.slot : NewSlot → Slot
  | meaning name => .meaning { name }
  | field d => .field d
  | method name definedIn doc => .method { name, definedIn, doc }

/-- The meaning that has to be there before a symbol is created. -/
def NewSlot.owner? : NewSlot → Option Symbol
  | method _ definedIn _ => some definedIn
  | _ => none

namespace Slot

/-- A piece of what is known, if there is such a piece for the kind of the symbol. -/
def answer? : Slot → Datum → Option Answer
  | s, .kind => some (.kind s.kind)
  | s, .name => some (.text s.name)
  | meaning d, .inherits => some (.symbol d.inherits)
  | meaning d, .submeanings => some (.symbols d.submeanings)
  | meaning d, .methods => some (.members d.methods)
  | meaning d, .fields => some (.members d.fields)
  | field d, .isRef => some (.flag d.isRef)
  | field d, .type => some (.text d.type)
  | field d, .init => some (.text d.init)
  | method d, .definedIn => some (.symbol d.definedIn)
  | method d, .doc => some (.text d.doc)
  | method d, .mapping => some (.overrides d.mapping)
  | _, _ => none

/-- What is known after a change, if the change is one for the kind of the symbol. -/
def change? : Slot → SlotChange → Option Slot
  | meaning d, .parent p => some (.meaning { d with inherits := p })
  | meaning d, .submeaning sub => some (.meaning { d with submeanings := d.submeanings ++ [sub] })
  | meaning d, .field key f => some (.meaning { d with fields := d.fields.set key f })
  | meaning d, .method key m => some (.meaning { d with methods := d.methods.set key m })
  | method d, .override (m :: path) code => some (.method { d with mapping := d.mapping.register code m path })
  | _, _ => none

/-- A change is about one piece, and leaves the others as they are. -/
theorem answer?_change? {x y : Slot} {c : SlotChange} (hc : x.change? c = some y) {q : Datum} (hq : c.datum ≠ q) :
    y.answer? q = x.answer? q := by
  unfold change? at hc
  split at hc
  all_goals cases hc
  all_goals cases q <;> first | rfl | exact absurd rfl hq

theorem exists_iff {P : Slot → Prop} :
    (∃ x, P x) ↔ (∃ d, P (.meaning d)) ∨ (∃ d, P (.field d)) ∨ ∃ d, P (.method d) := by
  constructor
  · rintro ⟨x, hx⟩
    cases x with
    | meaning d => exact .inl ⟨d, hx⟩
    | field d => exact .inr (.inl ⟨d, hx⟩)
    | method d => exact .inr (.inr ⟨d, hx⟩)
  · rintro (⟨d, hd⟩ | ⟨d, hd⟩ | ⟨d, hd⟩)
    all_goals exact ⟨_, hd⟩

end Slot

namespace SymbolTable

def hasArena (t : SymbolTable) (arena : Nat) : Except Fault Unit :=
  if arena < t.arenas.length then .ok () else .error .missingObject

def ask (t : SymbolTable) (s : Symbol) : Datum → Except Fault Answer
  | .kind => return .kind (← t.slot s).kind
  | .name => return .text (← t.name s)
  | .inherits => return .symbol (← t.meaning s).inherits
  | .submeanings => return .symbols (← t.meaning s).submeanings
  | .methods => return .members (← t.meaning s).methods
  | .fields => return .members (← t.meaning s).fields
  | .isRef => return .flag (← t.field s).isRef
  | .type => return .text (← t.field s).type
  | .init => return .text (← t.field s).init
  | .definedIn => return .symbol (← t.method s).definedIn
  | .doc => return .text (← t.method s).doc
  | .mapping => return .overrides (← t.method s).mapping

end SymbolTable

namespace TableEdit

def create (arena : Nat) (new : NewSlot) : Effect SymbolTable Symbol := do
  Effect.ask (·.hasArena arena)
  match new with
  | .meaning name => Effect.update (·.createMeaning arena name)
  | .field d => Effect.update (·.createField arena d)
  | .method name definedIn doc => createMethod arena name definedIn doc

def change (s : Symbol) : SlotChange → Effect SymbolTable Unit
  | .parent p => setInherits s p
  | .submeaning sub => addSubmeaning s sub
  | .field key f => setField s key f
  | .method key m => setMethod s key m
  | .override path code => registerOverride s path code

def perform : TableOp → Effect SymbolTable Answer
  | .openArena => Effect.update fun t => (.nothing, t.openArena.2)
  | .create arena new => return .symbol (← create arena new)
  | .release arena => do
    Effect.ask (·.hasArena arena)
    Effect.update fun t => (.nothing, t.release arena)
  | .change s c => do
    change s c
    return .nothing
  | .ask s q => Effect.ask (·.ask s q)

theorem atomic_create (arena : Nat) (new : NewSlot) : (create arena new).Atomic := by
  refine Effect.Atomic.ask_bind fun _ => ?_
  cases new with
  | meaning name => exact Effect.atomic_update _
  | field d => exact Effect.atomic_update _
  | method name definedIn doc => exact atomic_createMethod arena name definedIn doc

theorem atomic_change (s : Symbol) (c : SlotChange) : (change s c).Atomic := by
  cases c with
  | parent p => exact atomic_setInherits s p
  | submeaning sub => exact atomic_modifyMeaning s _
  | field key f => exact atomic_modifyMeaning s _
  | method key m => exact atomic_modifyMeaning s _
  | override path code => exact atomic_registerOverride s path code

/-- All operations look before they change anything. -/
theorem atomic_perform (op : TableOp) : (perform op).Atomic := by
  cases op with
  | openArena => exact Effect.atomic_update _
  | create arena new => exact (atomic_create arena new).bind fun _ _ _ => nofun
  | release arena => exact Effect.Atomic.ask_bind fun _ => Effect.atomic_update _
  | change s c => exact (atomic_change s c).bind fun _ _ _ => nofun
  | ask s q => exact Effect.atomic_ask _

end TableEdit

namespace SymbolTable

def create (t : SymbolTable) (arena : Nat) (new : NewSlot) : Except Fault (Symbol × SymbolTable) :=
  (TableEdit.create arena new).result t

def change (t : SymbolTable) (s : Symbol) (c : SlotChange) : Except Fault SymbolTable :=
    (TableEdit.change s c).outcome t

/-- Does an operation: the answer, and the table afterwards. -/
def perform (t : SymbolTable) (op : TableOp) : Except Fault (Answer × SymbolTable) := (TableEdit.perform op).result t

theorem perform_create (t : SymbolTable) (arena : Nat) (new : NewSlot) : t.perform (.create arena new) = (do
    let r ← t.create arena new
    return (.symbol r.1, r.2)) :=
  Effect.result_bind ..

theorem perform_release (t : SymbolTable) (arena : Nat) : t.perform (.release arena) =
    if arena < t.arenas.length then .ok (.nothing, t.release arena) else .error .missingObject := by
  rw [perform, TableEdit.perform, Effect.result_bind, Effect.result_ask, hasArena]
  split <;> rfl

theorem perform_change (t : SymbolTable) (s : Symbol) (c : SlotChange) :
    t.perform (.change s c) = (do return (.nothing, ← t.change s c)) := by
  rw [perform, TableEdit.perform, Effect.result_bind, change, Effect.outcome]
  cases (TableEdit.change s c).result t <;> rfl

theorem perform_ask (t : SymbolTable) (s : Symbol) (q : Datum) :
    t.perform (.ask s q) = (do return (← t.ask s q, t)) := by
  rw [perform, TableEdit.perform, Effect.result_ask]
  cases t.ask s q <;> rfl

/-! ### What the operations say and do -/

variable {t t' : SymbolTable} {s : Symbol} {k : Nat} {x : Slot}

/-- A symbol answers what is known of it, and only what there is for its kind. -/
theorem ask_eq_ok {q : Datum} {a : Answer} : t.ask s q = .ok a ↔ ∃ x, t.slot s = .ok x ∧ x.answer? q = some a := by
  cases q with
  | kind | name => simp [ask, name, bind_eq_ok, pure, Except.pure, Slot.answer?]
  | inherits | submeanings | methods | fields =>
    simp [ask, bind_eq_ok, meaning_eq_ok, pure, Except.pure, Slot.exists_iff, Slot.answer?]
  | isRef | type | init =>
    simp [ask, bind_eq_ok, field_eq_ok, pure, Except.pure, Slot.exists_iff, Slot.answer?]
  | definedIn | doc | mapping =>
    simp [ask, bind_eq_ok, method_eq_ok, pure, Except.pure, Slot.exists_iff, Slot.answer?]

theorem exists_of_discard {α : Type} {e : Except Fault α} {u : Unit} (h : discard e = .ok u) : ∃ a, e = .ok a := by
  cases e with
  | error f => cases h
  | ok a => exact ⟨a, rfl⟩

theorem setInherits_eq_ok {p : Symbol} : t.setInherits s p = .ok t' ↔
    (p = none ∨ ∃ d, t.slot p = .ok (.meaning d)) ∧
      ∃ d, t.slot s = .ok (.meaning d) ∧ t.put s (.meaning { d with inherits := p }) = t' := by
  have hmodify : t.modifyMeaning s (fun d => { d with inherits := p }) = .ok t' ↔
      ∃ d, t.slot s = .ok (.meaning d) ∧ t.put s (.meaning { d with inherits := p }) = t' := by
    rw [modifyMeaning_eq_ok]
    simp only [meaning_eq_ok]
  rw [← hmodify, setInherits_def]
  cases p with
  | none => exact ⟨fun h => ⟨.inl rfl, h⟩, fun h => h.2⟩
  | some p =>
    constructor
    · intro h
      obtain ⟨u, hu, h⟩ := bind_eq_ok.1 h
      obtain ⟨d, hd⟩ := exists_of_discard hu
      exact ⟨.inr ⟨d, meaning_eq_ok.1 hd⟩, h⟩
    · rintro ⟨hp, h⟩
      obtain ⟨d, hd⟩ := hp.resolve_left (by simp)
      exact bind_eq_ok.2 ⟨(), by rw [meaning_eq_ok.2 hd]; rfl, h⟩

/-- A change succeeds if it is one for the kind of the symbol, and a new parent is a meaning. -/
theorem change_eq_ok {c : SlotChange} : t.change s c = .ok t' ↔
    (∀ p, c = .parent p → p = none ∨ ∃ d, t.slot p = .ok (.meaning d)) ∧
      ∃ x y, t.slot s = .ok x ∧ x.change? c = some y ∧ t.put s y = t' := by
  cases c with
  | parent p =>
    refine setInherits_eq_ok.trans ?_
    simp [Slot.exists_iff, Slot.change?]
  | submeaning sub | field key f | method key m =>
    refine modifyMeaning_eq_ok.trans ?_
    simp [meaning_eq_ok, Slot.exists_iff, Slot.change?]
  | override path code =>
    cases path with
    | nil =>
      refine iff_of_false nofun ?_
      simp [Slot.change?]
    | cons m path =>
      refine registerOverride_eq_ok.trans ?_
      simp [method_eq_ok, Slot.exists_iff, Slot.change?]

theorem create_eq_ok {new : NewSlot} {r : Symbol × SymbolTable} : t.create k new = .ok r ↔ k < t.arenas.length ∧
    (∀ m, new.owner? = some m → ∃ d, t.slot m = .ok (.meaning d)) ∧ t.allocate k new.slot = r := by
  rw [create, TableEdit.create.eq_def, Effect.result_bind, Effect.result_ask, hasArena]
  by_cases hk : k < t.arenas.length
  · cases new with
    | meaning name => simp [hk, NewSlot.owner?, NewSlot.slot, createMeaning, Except.map, Except.bind]
    | field d => simp [hk, NewSlot.owner?, NewSlot.slot, createField, Except.map, Except.bind]
    | method name m doc =>
      rw [if_pos hk]
      change t.createMethod k name m doc = .ok r ↔ _
      simp only [hk, NewSlot.owner?, NewSlot.slot, true_and, Option.some.injEq, forall_eq', ← meaning_eq_ok]
      constructor
      · intro h
        refine ⟨?_, allocate_of_createMethod h⟩
        rw [createMethod_def] at h
        obtain ⟨_, hm, -⟩ := bind_eq_ok.1 h
        exact exists_of_discard hm
      · rintro ⟨⟨d, hd⟩, h⟩
        rw [createMethod_eq hd, h]
  · simp [hk, Except.map, Except.bind]

/-! ### What can be read afterwards -/

theorem slot_openArena : t.openArena.2.slot s = .ok x ↔ t.slot s = .ok x := by
  rw [slot_eq_ok, slot_eq_ok]
  constructor
  · rintro ⟨h, a, rfl, ha, harena, hgeneration, hx⟩
    refine ⟨h, a, rfl, ?_, harena, hgeneration, hx⟩
    rw [openArena, List.getElem?_append] at ha
    split at ha
    · exact ha
    · -- nothing can be read in the new arena
      obtain rfl := List.mem_singleton.1 (List.mem_of_getElem? ha)
      cases hx
  · rintro ⟨h, a, rfl, ha, harena, hgeneration, hx⟩
    refine ⟨h, a, rfl, ?_, harena, hgeneration, hx⟩
    rw [openArena, List.getElem?_append_left (List.getElem?_eq_some_iff.1 ha).1]
    exact ha

theorem slot_release : (t.release k).slot s = .ok x ↔ t.slot s = .ok x ∧ ∀ h, s = some h → h.arena ≠ k := by
  rw [slot_eq_ok, slot_eq_ok]
  constructor
  · rintro ⟨h, a, rfl, ha, harena, hgeneration, hx⟩
    have hk : h.arena ≠ k := by
      rintro rfl
      rw [release, List.getElem?_modify_eq] at ha
      obtain ⟨b, -, rfl⟩ := Option.map_eq_some_iff.1 ha
      cases hx
    rw [release, List.getElem?_modify_ne _ _ (Ne.symm hk)] at ha
    exact ⟨⟨h, a, rfl, ha, harena, hgeneration, hx⟩, fun h' hh' => Option.some.inj hh' ▸ hk⟩
  · rintro ⟨⟨h, a, rfl, ha, harena, hgeneration, hx⟩, hk⟩
    refine ⟨h, a, rfl, ?_, harena, hgeneration, hx⟩
    rw [release, List.getElem?_modify_ne _ _ (Ne.symm (hk h rfl))]
    exact ha

/-- Nothing but the new symbol is added to what can be read. -/
theorem slot_of_slot_allocate {y : Slot} (hs : (t.allocate k x).2.slot s = .ok y) :
    (s = (t.allocate k x).1 ∧ y = x) ∨ t.slot s = .ok y := by
  rw [allocate] at hs ⊢
  cases ha : t.arenas[k]? with
  | none => exact .inr (by simpa [ha] using hs)
  | some a =>
    rw [ha] at hs
    obtain ⟨h, b, rfl, hb, harena, hgeneration, hy⟩ := slot_eq_ok.1 hs
    by_cases hsame : k = h.arena
    · subst hsame
      have hk : h.arena < t.arenas.length := (List.getElem?_eq_some_iff.1 ha).1
      obtain rfl : (a.allocate x).2 = b := by simpa [hk] using hb
      rcases Nat.lt_or_ge h.index.toNat a.slots.length with hlt | hge
      · rw [Arena.allocate, List.getElem?_append_left hlt] at hy
        exact .inr (slot_eq_ok.2 ⟨h, a, rfl, ha, harena, hgeneration, hy⟩)
      · -- the last place of the arena is that of the new symbol
        rw [Arena.allocate, List.getElem?_append_right hge] at hy
        have hindex : h.index.toNat = a.slots.length := by
          have := (List.getElem?_eq_some_iff.1 hy).1
          simp at this
          omega
        have hnew : h = (a.allocate x).1 := by
          obtain ⟨arena, index, generation⟩ := h
          simp only [Arena.allocate] at harena hgeneration ⊢
          rw [harena, hgeneration, ← hindex]
          simp
        exact .inl ⟨congrArg some hnew, by simpa using List.mem_of_getElem? hy⟩
    · rw [List.getElem?_set_ne hsame] at hb
      exact .inr (slot_eq_ok.2 ⟨h, b, rfl, hb, harena, hgeneration, hy⟩)

/-- An arena with room: the new symbol can be read, too. -/
theorem slot_allocate_iff (hroom : t.Room k 0 1) {y : Slot} :
    (t.allocate k x).2.slot s = .ok y ↔ (s = (t.allocate k x).1 ∧ y = x) ∨ t.slot s = .ok y := by
  refine ⟨slot_of_slot_allocate, ?_⟩
  rintro (⟨rfl, rfl⟩ | hs)
  · obtain ⟨new, t', hallocate, -, -, hnew, -⟩ := allocate_spec hroom y
    rw [hallocate]
    exact hnew
  · exact slot_allocate_of_slot k x hs

/-! ### Identities and generations -/

@[simp] theorem length_openArena (t : SymbolTable) : t.openArena.2.arenas.length = t.arenas.length + 1 := by
  simp [openArena]

@[simp] theorem length_allocate (t : SymbolTable) (k : Nat) (x : Slot) :
    (t.allocate k x).2.arenas.length = t.arenas.length := by
  rw [allocate]
  split <;> simp

@[simp] theorem length_release (t : SymbolTable) (k : Nat) : (t.release k).arenas.length = t.arenas.length := by
  simp [release]

@[simp] theorem length_put (t : SymbolTable) (s : Symbol) (x : Slot) :
    (t.put s x).arenas.length = t.arenas.length := by
  cases s <;> simp [put]

/-- The identities and generations of the arenas. -/
def headers (t : SymbolTable) : List (Nat × UInt32) := t.arenas.map fun a => (a.id, a.generation)

theorem headers_openArena (t : SymbolTable) : t.openArena.2.headers = t.headers ++ [(t.arenas.length, 1)] := by
  simp [headers, openArena]

theorem headers_allocate (t : SymbolTable) (k : Nat) (x : Slot) : (t.allocate k x).2.headers = t.headers := by
  rw [allocate]
  split
  · rfl
  · rename_i a ha
    obtain ⟨hk, rfl⟩ := List.getElem?_eq_some_iff.1 ha
    have hlength : k < t.headers.length := by simpa [headers] using hk
    have hsame : ((t.arenas[k].allocate x).2.id, (t.arenas[k].allocate x).2.generation) = t.headers[k] := by
      simp [headers, Arena.allocate]
    rw [headers, List.map_set, hsame]
    exact List.set_getElem_self _

/-- A new symbol is of its arena, and of the generation that the arena has. -/
theorem header_allocate (hroom : t.Room k 0 1) (x : Slot) :
    ∃ h, (t.allocate k x).1 = some h ∧ t.headers[k]? = some (h.arena, h.generation) := by
  obtain ⟨a, ha, -⟩ := hroom
  exact ⟨(a.allocate x).1, by rw [allocate, ha], by simp [headers, ha, Arena.allocate]⟩

theorem headers_put (t : SymbolTable) (s : Symbol) (x : Slot) : (t.put s x).headers = t.headers := by
  cases s with
  | none => rfl
  | some h =>
    refine List.ext_getElem? fun i => ?_
    by_cases hi : h.arena = i
    · subst hi
      simp [headers, put, Function.comp_def]
    · simp [headers, put, List.getElem?_modify_ne _ _ hi]

theorem getElem?_headers_release (t : SymbolTable) (k i : Nat) :
    (t.release k).headers[i]? = (t.headers[i]?).map fun g => if k = i then (g.1, g.2 + 1) else g := by
  by_cases hi : k = i
  · subst hi
    simp [headers, release, Arena.release, Function.comp_def]
  · simp [headers, release, List.getElem?_modify_ne _ _ hi, hi, Function.comp_def]

end SymbolTable

/-! ### Sizes -/

namespace SymbolTable

theorem size_openArena (t : SymbolTable) (k : Nat) : t.openArena.2.size k = t.size k := by
  rw [size, size, openArena, List.getElem?_append]
  split
  · rfl
  · rename_i hk
    rw [List.getElem?_eq_none (Nat.le_of_not_lt hk)]
    cases k - t.arenas.length <;> rfl

theorem size_allocate_le (t : SymbolTable) (k : Nat) (x : Slot) (i : Nat) :
    (t.allocate k x).2.size i ≤ t.size i + 1 := by
  rw [allocate]
  split
  · exact Nat.le_succ _
  · rename_i a ha
    rw [size, size, List.getElem?_set]
    split
    · rename_i hi
      subst hi
      split
      · simp [ha, Arena.size, Arena.allocate]
      · exact Nat.zero_le _
    · exact Nat.le_succ _

theorem size_release_le (t : SymbolTable) (k i : Nat) : (t.release k).size i ≤ t.size i := by
  rw [size, size, release]
  by_cases hi : k = i
  · subst hi
    rw [List.getElem?_modify_eq]
    cases t.arenas[k]? with
    | none => exact Nat.le_refl _
    | some a => exact Nat.zero_le _
  · rw [List.getElem?_modify_ne _ _ hi]

theorem size_put (t : SymbolTable) (s : Symbol) (x : Slot) (i : Nat) : (t.put s x).size i = t.size i := by
  cases s with
  | none => rfl
  | some h =>
    rw [size, size, put]
    by_cases hi : h.arena = i
    · subst hi
      rw [List.getElem?_modify_eq]
      cases t.arenas[h.arena]? with
      | none => rfl
      | some a => simp [Arena.size]
    · rw [List.getElem?_modify_ne _ _ hi]

end SymbolTable

/-! ### Ledgers -/

/-- What is known of a symbol that was created. -/
structure LedgerEntry where
  symbol : Symbol
  arena : Nat
  /-- How often the arena had been released before. -/
  era : Nat
  data : Slot
  deriving DecidableEq, Repr

namespace LedgerEntry

/-- What is known after a change of a symbol. -/
def change (e : LedgerEntry) (s : Symbol) (c : SlotChange) : LedgerEntry :=
  if e.symbol = s then { e with data := (e.data.change? c).getD e.data } else e

variable (e : LedgerEntry) (s : Symbol) (c : SlotChange)

@[simp] theorem change_symbol : (e.change s c).symbol = e.symbol := by
  rw [change]
  split <;> rfl

@[simp] theorem change_arena : (e.change s c).arena = e.arena := by
  rw [change]
  split <;> rfl

@[simp] theorem change_era : (e.change s c).era = e.era := by
  rw [change]
  split <;> rfl

theorem answer?_change {q : Datum} (hq : e.symbol = s → c.datum ≠ q) :
    (e.change s c).data.answer? q = e.data.answer? q := by
  rw [change]
  split
  · rename_i hs
    cases hc : e.data.change? c with
    | none => rfl
    | some y => exact Slot.answer?_change? hc (hq hs)
  · rfl

end LedgerEntry

/-- A symbol table, the symbols that were created in it, and the arenas that were released, one for each release. -/
structure Ledger where
  table : SymbolTable := {}
  entries : List LedgerEntry := []
  released : List Nat := []
  deriving DecidableEq, Repr

namespace Ledger

/-- The ledger after an operation that succeeded. -/
def record (w : Ledger) (t : SymbolTable) : TableOp → Answer → Ledger
  | .create arena new, .symbol s =>
    ⟨t, w.entries ++ [⟨s, arena, w.released.count arena, new.slot⟩], w.released⟩
  | .release arena, _ => ⟨t, w.entries, w.released ++ [arena]⟩
  | .change s c, _ => ⟨t, w.entries.map (·.change s c), w.released⟩
  | _, _ => ⟨t, w.entries, w.released⟩

/-- The ledger after an operation.  An operation that fails is not recorded; it leaves the table as it may be. -/
def step (w : Ledger) (op : TableOp) : Ledger :=
  match w.table.perform op with
  | .ok (answer, t) => w.record t op answer
  | .error _ => { w with table := (TableEdit.perform op).after w.table }

theorem step_of_ok {w : Ledger} {op : TableOp} {answer : Answer} {t : SymbolTable}
    (h : w.table.perform op = .ok (answer, t)) : w.step op = w.record t op answer := by
  rw [step, h]

/-- An operation that fails changes nothing. -/
theorem step_of_error {w : Ledger} {op : TableOp} {e : Fault} (h : w.table.perform op = .error e) : w.step op = w := by
  rw [step, h]
  simp only [(TableEdit.atomic_perform op).after_of_result h]

def run (ops : List TableOp) : Ledger := ops.foldl step {}

/-- The arena of a symbol has not been released since the symbol was created. -/
def Live (w : Ledger) (e : LedgerEntry) : Prop := e.era = w.released.count e.arena

/-- A symbol that was created, whose arena has not been released since, and what is known of it. -/
def Knows (w : Ledger) (s : Symbol) (x : Slot) : Prop := ∃ e ∈ w.entries, e.symbol = s ∧ w.Live e ∧ e.data = x

/-- What an operation may do with a ledger. -/
inductive Moves (w : Ledger) : TableOp → Ledger → Prop where
  | same (op : TableOp) : Moves w op w
  | opened : Moves w .openArena ⟨w.table.openArena.2, w.entries, w.released⟩
  | created {k : Nat} (new : NewSlot) (hk : k < w.table.arenas.length) : Moves w (.create k new)
      ⟨(w.table.allocate k new.slot).2,
        w.entries ++ [⟨(w.table.allocate k new.slot).1, k, w.released.count k, new.slot⟩], w.released⟩
  | released {k : Nat} (hk : k < w.table.arenas.length) : Moves w (.release k)
      ⟨w.table.release k, w.entries, w.released ++ [k]⟩
  | changed {s : Symbol} {c : SlotChange} {x y : Slot} (hs : w.table.slot s = .ok x) (hc : x.change? c = some y)
      (hp : ∀ p, c = .parent p → p = none ∨ ∃ d, w.table.slot p = .ok (.meaning d)) :
      Moves w (.change s c) ⟨w.table.put s y, w.entries.map (·.change s c), w.released⟩

theorem moves_step (w : Ledger) (op : TableOp) : w.Moves op (w.step op) := by
  cases h : w.table.perform op with
  | error e =>
    rw [step_of_error h]
    exact .same op
  | ok r =>
    obtain ⟨answer, t⟩ := r
    rw [step_of_ok h]
    cases op with
    | openArena =>
      cases h
      exact .opened
    | create k new =>
      rw [SymbolTable.perform_create] at h
      obtain ⟨r, hr, h⟩ := bind_eq_ok.1 h
      cases h
      obtain ⟨hk, -, rfl⟩ := SymbolTable.create_eq_ok.1 hr
      exact .created new hk
    | release k =>
      rw [SymbolTable.perform_release] at h
      split at h
      · rename_i hk
        cases h
        exact .released hk
      · cases h
    | change s c =>
      rw [SymbolTable.perform_change] at h
      obtain ⟨t', ht', h⟩ := bind_eq_ok.1 h
      cases h
      obtain ⟨hp, x, y, hs, hc, rfl⟩ := SymbolTable.change_eq_ok.1 ht'
      exact .changed hs hc hp
    | ask s q =>
      rw [SymbolTable.perform_ask] at h
      obtain ⟨a, -, h⟩ := bind_eq_ok.1 h
      cases h
      exact .same _

/-- The table and the ledger tell the same. -/
structure Sound (w : Ledger) : Prop where
  header : ∀ k g, w.table.headers[k]? = some g → g = (k, UInt32.ofNat (w.released.count k + 1))
  opened : ∀ k ∈ w.released, k < w.table.arenas.length
  entry : ∀ e ∈ w.entries, ∃ h, e.symbol = some h ∧ h.arena = e.arena ∧ h.generation = UInt32.ofNat (e.era + 1) ∧
    e.era ≤ w.released.count e.arena
  live : ∀ e ∈ w.entries, w.Live e → w.table.slot e.symbol = .ok e.data
  listed : ∀ s x, w.table.slot s = .ok x → ∃ e ∈ w.entries, e.symbol = s ∧ w.Live e
  distinct : (w.entries.map (·.symbol)).Nodup

/-- Nothing has been counted beyond 32 bits. -/
def Fits (w : Ledger) : Prop := ∀ k, w.released.count k < 4294967296 ∧ w.table.size k ≤ 4294967296

variable {w : Ledger} {s : Symbol} {x : Slot}

theorem Sound.slot_iff (h : w.Sound) : w.table.slot s = .ok x ↔ w.Knows s x := by
  constructor
  · intro hs
    obtain ⟨e, he, rfl, hlive⟩ := h.listed s x hs
    exact ⟨e, he, rfl, hlive, Except.ok.inj ((h.live e he hlive).symm.trans hs)⟩
  · rintro ⟨e, he, rfl, hlive, rfl⟩
    exact h.live e he hlive

theorem Sound.empty : Sound {} where
  header := by simp [SymbolTable.headers]
  opened := by simp
  entry := by simp
  live := by simp
  listed := by
    intro s x hs
    obtain ⟨h, a, -, ha, -⟩ := SymbolTable.slot_eq_ok.1 hs
    cases ha
  distinct := List.nodup_nil

theorem Sound.openArena (h : w.Sound) : Sound ⟨w.table.openArena.2, w.entries, w.released⟩ where
  header := by
    intro k g hg
    rw [SymbolTable.headers_openArena, List.getElem?_append] at hg
    split at hg
    · exact h.header k g hg
    · rename_i hk
      -- the new arena has not been released before
      have hnew : w.released.count w.table.arenas.length = 0 :=
        List.count_eq_zero.2 fun hmem => Nat.lt_irrefl _ (h.opened _ hmem)
      have hlength : w.table.headers.length = w.table.arenas.length := List.length_map _
      have hone := (List.getElem?_eq_some_iff.1 hg).1
      obtain rfl : k = w.table.arenas.length := by
        simp only [List.length_singleton] at hone
        omega
      obtain rfl := List.mem_singleton.1 (List.mem_of_getElem? hg)
      rw [hnew]
      rfl
  opened := fun k hk => (h.opened k hk).trans_le (by simp [SymbolTable.openArena])
  entry := h.entry
  live := fun e he hlive => SymbolTable.slot_openArena.2 (h.live e he hlive)
  listed := fun s x hs => h.listed s x (SymbolTable.slot_openArena.1 hs)
  distinct := h.distinct

/-- Generations of 32 bits are told apart as long as there are fewer than 2 ^ 32 releases. -/
theorem eq_of_generation_eq {m n : Nat} (h : UInt32.ofNat (m + 1) = UInt32.ofNat (n + 1)) (hm : m < 4294967296)
    (hn : n < 4294967296) : m = n := by
  have h' := congrArg UInt32.toNat h
  simp only [UInt32.toNat_ofNat'] at h'
  omega

theorem room_of_size {k : Nat} (h : w.Sound) (hk : k < w.table.arenas.length) (hsize : w.table.size k < 4294967296) :
    w.table.Room k 0 1 := by
  have ha := List.getElem?_eq_getElem hk
  have hheader := h.header k (w.table.arenas[k].id, w.table.arenas[k].generation) (by simp [SymbolTable.headers, ha])
  refine ⟨w.table.arenas[k], ha, congrArg Prod.fst hheader, Nat.zero_le _, ?_⟩
  rw [SymbolTable.size, ha] at hsize
  exact hsize

/-- What is created has a symbol that nothing had before: an entry with this symbol would be of the same generation, and
so would be alive. -/
theorem Sound.symbol_new (h : w.Sound) {k : Nat} (x : Slot) (hk : k < w.table.arenas.length)
    (hcount : w.released.count k < 4294967296) (hsize : w.table.size k < 4294967296) :
    (w.table.allocate k x).1 ∉ w.entries.map (·.symbol) := by
  have hroom := room_of_size h hk hsize
  obtain ⟨handle, hnew, hheader⟩ := SymbolTable.header_allocate hroom x
  obtain ⟨harena, hgeneration⟩ := Prod.mk.inj (h.header k _ hheader)
  intro hmem
  obtain ⟨e, he, hsymbol⟩ := List.mem_map.1 hmem
  obtain ⟨old, hold, holdArena, holdGeneration, hera⟩ := h.entry e he
  obtain rfl : old = handle := Option.some.inj (hold.symm.trans (hsymbol.trans hnew))
  have harena' : e.arena = k := holdArena.symm.trans harena
  have hlive : w.Live e := by
    rw [harena'] at hera
    rw [Live, harena']
    exact eq_of_generation_eq (holdGeneration.symm.trans hgeneration) (hera.trans_lt hcount) hcount
  obtain ⟨handle', t', hallocate, -, -, -, hdiffer⟩ := SymbolTable.allocate_spec hroom x
  refine (hdiffer _ _ (h.live e he hlive)).1 ?_
  rw [hsymbol, hallocate]

theorem Sound.create (h : w.Sound) {k : Nat} (new : NewSlot) (hk : k < w.table.arenas.length)
    (hcount : w.released.count k < 4294967296) (hsize : w.table.size k < 4294967296) :
    Sound ⟨(w.table.allocate k new.slot).2,
      w.entries ++ [⟨(w.table.allocate k new.slot).1, k, w.released.count k, new.slot⟩], w.released⟩ := by
  have hroom := room_of_size h hk hsize
  have hfresh := h.symbol_new new.slot hk hcount hsize
  obtain ⟨handle, hnew, hheader⟩ := SymbolTable.header_allocate hroom new.slot
  obtain ⟨harena, hgeneration⟩ := Prod.mk.inj (h.header k _ hheader)
  have hslot : ∀ {s x}, (w.table.allocate k new.slot).2.slot s = .ok x ↔
      (s = some handle ∧ x = new.slot) ∨ w.table.slot s = .ok x := by
    intro s x
    rw [SymbolTable.slot_allocate_iff hroom, hnew]
  rw [hnew] at hfresh ⊢
  refine ⟨?_, ?_, ?_, ?_, ?_, ?_⟩
  · rw [SymbolTable.headers_allocate]
    exact h.header
  · simpa using h.opened
  · intro e he
    rcases List.mem_append.1 he with he | he
    · exact h.entry e he
    · obtain rfl := List.mem_singleton.1 he
      exact ⟨handle, rfl, harena, hgeneration, Nat.le_refl _⟩
  · intro e he hlive
    rcases List.mem_append.1 he with he | he
    · exact hslot.2 (.inr (h.live e he hlive))
    · obtain rfl := List.mem_singleton.1 he
      exact hslot.2 (.inl ⟨rfl, rfl⟩)
  · intro s x hs
    rcases hslot.1 hs with ⟨rfl, -⟩ | hs
    · exact ⟨⟨some handle, k, w.released.count k, new.slot⟩, by simp, rfl, rfl⟩
    · obtain ⟨e, he, hsymbol, hlive⟩ := h.listed s x hs
      exact ⟨e, List.mem_append_left _ he, hsymbol, hlive⟩
  · rw [List.map_append]
    exact h.distinct.append (List.nodup_singleton _) (by simpa using hfresh)

theorem Sound.release (h : w.Sound) {k : Nat} (hk : k < w.table.arenas.length) :
    Sound ⟨w.table.release k, w.entries, w.released ++ [k]⟩ where
  header := by
    intro i g hg
    rw [SymbolTable.getElem?_headers_release, Option.map_eq_some_iff] at hg
    obtain ⟨g', hg', rfl⟩ := hg
    obtain rfl := h.header i g' hg'
    by_cases hi : k = i
    · subst hi
      simp [List.count_append]
    · simp [List.count_append, hi]
  opened := by
    intro i hi
    rw [SymbolTable.length_release]
    rcases List.mem_append.1 hi with hi | hi
    · exact h.opened i hi
    · exact List.mem_singleton.1 hi ▸ hk
  entry := by
    intro e he
    obtain ⟨handle, hsymbol, harena, hgeneration, hera⟩ := h.entry e he
    exact ⟨handle, hsymbol, harena, hgeneration, hera.trans (by simp [List.count_append])⟩
  live := by
    intro e he hlive
    obtain ⟨handle, hsymbol, harena, -, hera⟩ := h.entry e he
    rw [Live, List.count_append] at hlive
    have hother : e.arena ≠ k := by
      rintro rfl
      simp at hlive
      omega
    refine SymbolTable.slot_release.2 ⟨h.live e he ?_, ?_⟩
    · rw [Live]
      simpa [hother.symm] using hlive
    · intro handle' hhandle'
      obtain rfl := Option.some.inj (hsymbol.symm.trans hhandle')
      exact harena ▸ hother
  listed := by
    intro s x hs
    obtain ⟨hs, hother⟩ := SymbolTable.slot_release.1 hs
    obtain ⟨e, he, rfl, hlive⟩ := h.listed s x hs
    obtain ⟨handle, hsymbol, harena, -⟩ := h.entry e he
    have hne := hother handle hsymbol
    rw [harena] at hne
    exact ⟨e, he, rfl, by simpa [Live, List.count_append, hne.symm] using hlive⟩
  distinct := h.distinct

theorem Sound.change (h : w.Sound) {c : SlotChange} {y : Slot} (hs : w.table.slot s = .ok x)
    (hc : x.change? c = some y) : Sound ⟨w.table.put s y, w.entries.map (·.change s c), w.released⟩ := by
  have hlive : ∀ e : LedgerEntry,
      Live ⟨w.table.put s y, w.entries.map (·.change s c), w.released⟩ (e.change s c) ↔ w.Live e := by
    intro e
    rw [Live, Live, e.change_arena, e.change_era]
  refine ⟨?_, ?_, ?_, ?_, ?_, ?_⟩
  · rw [SymbolTable.headers_put]
    exact h.header
  · simpa using h.opened
  · intro e he
    obtain ⟨old, hold, rfl⟩ := List.mem_map.1 he
    simpa using h.entry old hold
  · intro e he hlive'
    obtain ⟨old, hold, rfl⟩ := List.mem_map.1 he
    have hread := h.live old hold ((hlive old).1 hlive')
    rw [LedgerEntry.change_symbol, SymbolTable.slot_put hs, LedgerEntry.change]
    by_cases hsymbol : old.symbol = s
    · rw [hsymbol] at hread
      obtain rfl := Except.ok.inj (hs.symm.trans hread)
      simp [hsymbol, hc]
    · simpa [hsymbol] using hread
  · intro s' x' hs'
    have hread : ∃ z, w.table.slot s' = .ok z := by
      rw [SymbolTable.slot_put hs] at hs'
      split at hs'
      · rename_i hsymbol
        exact ⟨x, hsymbol ▸ hs⟩
      · exact ⟨x', hs'⟩
    obtain ⟨z, hz⟩ := hread
    obtain ⟨e, he, rfl, hlive'⟩ := h.listed s' z hz
    exact ⟨e.change s c, List.mem_map_of_mem he, e.change_symbol s c, (hlive e).2 hlive'⟩
  · have hsymbols : LedgerEntry.symbol ∘ (·.change s c) = LedgerEntry.symbol := funext fun e => e.change_symbol s c
    rw [List.map_map, hsymbols]
    exact h.distinct

theorem Sound.step (h : w.Sound) (op : TableOp) (hbefore : w.Fits) (hafter : (w.step op).Fits) :
    (w.step op).Sound := by
  have hmoves := w.moves_step op
  revert hafter
  generalize w.step op = w' at hmoves
  intro hafter
  cases hmoves with
  | same => exact h
  | opened => exact h.openArena
  | @created k new hk =>
    refine h.create new hk (hbefore k).1 ?_
    have hsize := (hafter k).2
    simp only [SymbolTable.size, SymbolTable.allocate, List.getElem?_eq_getElem hk] at hsize ⊢
    simpa [hk, Arena.allocate, Arena.size, Nat.succ_le_iff] using hsize
  | released hk => exact h.release hk
  | changed hs hc => exact h.change hs hc

/-! ### Runs -/

/-- In no part of a run an arena is released 2 ^ 32 times or has more than 2 ^ 32 symbols at a time. -/
def WithinBounds (ops : List TableOp) : Prop := ∀ before, before <+: ops → (run before).Fits

theorem run_concat (ops : List TableOp) (op : TableOp) : run (ops ++ [op]) = (run ops).step op := by
  rw [run, List.foldl_append]
  rfl

theorem sound_run {ops : List TableOp} (h : WithinBounds ops) : (run ops).Sound := by
  induction ops using List.reverseRecOn with
  | nil => exact Sound.empty
  | append_singleton ops op ih =>
    have hbefore : ops <+: ops ++ [op] := List.prefix_append _ _
    have hsound := ih fun before h' => h before (h'.trans hbefore)
    rw [run_concat]
    exact hsound.step op (h ops hbefore) (run_concat ops op ▸ h _ (List.prefix_refl _))

/-- A symbol stands for a meaning and is alive. -/
def KnowsMeaning (w : Ledger) (s : Symbol) : Prop := ∃ d, w.Knows s (.meaning d)

/-- The ledger tells what the operations do.  Symbols that were created are all different.  A symbol is asked with
success exactly if it is alive and has what is asked for, and asking changes nothing; a parent is set exactly if both
are alive meanings, or there is to be none.  An operation that does not succeed changes nothing. -/
structure Faithful (w : Ledger) : Prop where
  distinct : (w.entries.map (·.symbol)).Nodup
  nonempty : ∀ e ∈ w.entries, e.symbol ≠ none
  ask : ∀ s q r, w.table.perform (.ask s q) = .ok r ↔ ∃ x a, w.Knows s x ∧ x.answer? q = some a ∧ r = (a, w.table)
  parent : ∀ s p, (∃ r, w.table.perform (.change s (.parent p)) = .ok r) ↔
    w.KnowsMeaning s ∧ (p = none ∨ w.KnowsMeaning p)
  create : ∀ k new, (∃ r, w.table.perform (.create k new) = .ok r) ↔
    k < w.table.arenas.length ∧ ∀ m, new.owner? = some m → w.KnowsMeaning m
  refused : ∀ op e, w.table.perform op = .error e → w.step op = w

theorem Sound.faithful (h : w.Sound) : w.Faithful where
  distinct := h.distinct
  nonempty := by
    intro e he
    obtain ⟨handle, hsymbol, -⟩ := h.entry e he
    simp [hsymbol]
  ask := by
    intro s q r
    simp only [SymbolTable.perform_ask, bind_eq_ok, SymbolTable.ask_eq_ok, h.slot_iff, pure, Except.pure,
      Except.ok.injEq]
    constructor
    · rintro ⟨a, ⟨x, hx, ha⟩, rfl⟩
      exact ⟨x, a, hx, ha, rfl⟩
    · rintro ⟨x, a, hx, ha, rfl⟩
      exact ⟨a, ⟨x, hx, ha⟩, rfl⟩
  parent := by
    intro s p
    simp only [KnowsMeaning, ← h.slot_iff, SymbolTable.perform_change]
    constructor
    · rintro ⟨r, hr⟩
      obtain ⟨t', ht', -⟩ := bind_eq_ok.1 hr
      obtain ⟨hp, d, hd, -⟩ := SymbolTable.setInherits_eq_ok.1 ht'
      exact ⟨⟨d, hd⟩, hp⟩
    · rintro ⟨⟨d, hd⟩, hp⟩
      exact ⟨_, bind_eq_ok.2 ⟨_, SymbolTable.setInherits_eq_ok.2 ⟨hp, d, hd, rfl⟩, rfl⟩⟩
  create := by
    intro k new
    simp only [KnowsMeaning, ← h.slot_iff, SymbolTable.perform_create]
    constructor
    · rintro ⟨r, hr⟩
      obtain ⟨r', hr', -⟩ := bind_eq_ok.1 hr
      obtain ⟨hk, howner, -⟩ := SymbolTable.create_eq_ok.1 hr'
      exact ⟨hk, howner⟩
    · rintro ⟨hk, howner⟩
      exact ⟨_, bind_eq_ok.2 ⟨_, SymbolTable.create_eq_ok.2 ⟨hk, howner, rfl⟩, rfl⟩⟩
  refused _ _ := step_of_error

theorem Faithful.ask_entry (h : w.Faithful) {e : LedgerEntry} (he : e ∈ w.entries) {q : Datum}
    {r : Answer × SymbolTable} : w.table.perform (.ask e.symbol q) = .ok r ↔
      w.Live e ∧ ∃ a, e.data.answer? q = some a ∧ r = (a, w.table) := by
  rw [h.ask]
  constructor
  · rintro ⟨x, a, ⟨e', he', hsymbol, hlive, rfl⟩, ha, rfl⟩
    obtain rfl := List.inj_on_of_nodup_map h.distinct he' he hsymbol
    exact ⟨hlive, a, ha, rfl⟩
  · rintro ⟨hlive, a, ha, rfl⟩
    exact ⟨_, a, ⟨e, he, rfl, hlive, rfl⟩, ha, rfl⟩

/-! ### The life of one symbol -/

/-- An entry is still there, and a piece of what is known of its symbol is the same. -/
structure Persists (w : Ledger) (e : LedgerEntry) (q : Datum) : Prop where
  entry : ∃ e' ∈ w.entries, e'.symbol = e.symbol ∧ e'.arena = e.arena ∧ e'.era = e.era ∧
    e'.data.answer? q = e.data.answer? q
  opened : e.arena < w.table.arenas.length

variable {e : LedgerEntry} {q : Datum}

theorem Persists.step (h : w.Persists e q) {op : TableOp} (hop : ∀ c, op = .change e.symbol c → c.datum ≠ q) :
    (w.step op).Persists e q := by
  obtain ⟨⟨e', he', hsymbol, harena, hera, hq⟩, hopened⟩ := h
  have hmoves := w.moves_step op
  generalize w.step op = w' at hmoves
  cases hmoves with
  | same => exact ⟨⟨e', he', hsymbol, harena, hera, hq⟩, hopened⟩
  | opened => exact ⟨⟨e', he', hsymbol, harena, hera, hq⟩, hopened.trans (by simp)⟩
  | created => exact ⟨⟨e', List.mem_append_left _ he', hsymbol, harena, hera, hq⟩, by simpa using hopened⟩
  | released => exact ⟨⟨e', he', hsymbol, harena, hera, hq⟩, by simpa using hopened⟩
  | @changed s c =>
    refine ⟨⟨e'.change s c, List.mem_map_of_mem he', ?_⟩, by simpa using hopened⟩
    have hother : e'.symbol = s → c.datum ≠ q := fun hs => hop c (by rw [← hsymbol, hs])
    rw [e'.change_symbol, e'.change_arena, e'.change_era, e'.answer?_change s c hother]
    exact ⟨hsymbol, harena, hera, hq⟩

/-- The releases of an arena that is open are counted. -/
theorem count_released_step {k : Nat} (hk : k < w.table.arenas.length) (op : TableOp) :
    (w.step op).released.count k = w.released.count k + if op = .release k then 1 else 0 := by
  cases op with
  | release j =>
    by_cases hj : j < w.table.arenas.length
    · simp [step, SymbolTable.perform_release, hj, record, List.count_append, List.count_singleton]
    · have hne : j ≠ k := by
        rintro rfl
        exact hj hk
      simp [step, SymbolTable.perform_release, hj, hne]
  | create j new =>
    rw [step]
    split
    · rename_i answer t h
      cases answer <;> simp [record]
    · simp
  | openArena | change s c | ask s q =>
    rw [step]
    split
    · simp [record]
    · simp

theorem persists_foldl (h : w.Persists e q) {ops : List TableOp} (hops : ∀ c, .change e.symbol c ∈ ops → c.datum ≠ q) :
    (ops.foldl Ledger.step w).Persists e q ∧
      (ops.foldl Ledger.step w).released.count e.arena = w.released.count e.arena + ops.count (.release e.arena) := by
  induction ops generalizing w with
  | nil => exact ⟨h, rfl⟩
  | cons op ops ih =>
    have hstep : (w.step op).Persists e q := h.step fun c hc => hops c (hc ▸ List.mem_cons_self)
    obtain ⟨hpersists, hcount⟩ := ih hstep fun c hc => hops c (List.mem_cons_of_mem _ hc)
    refine ⟨hpersists, ?_⟩
    rw [List.foldl_cons, hcount, count_released_step h.opened, List.count_cons, Nat.add_assoc, Nat.add_comm (ite _ _ _)]
    simp

/-- A symbol is alive until its arena is released, and answers the same until what it is asked for is changed. -/
theorem Persists.ask_iff (h : w.Persists e q) (he : w.Live e) {ops : List TableOp}
    (hops : ∀ c, .change e.symbol c ∈ ops → c.datum ≠ q) (hfaithful : (ops.foldl Ledger.step w).Faithful)
    {r : Answer × SymbolTable} : (ops.foldl Ledger.step w).table.perform (.ask e.symbol q) = .ok r ↔
      .release e.arena ∉ ops ∧ ∃ a, e.data.answer? q = some a ∧ r = (a, (ops.foldl Ledger.step w).table) := by
  obtain ⟨⟨⟨e', he', hsymbol, harena, hera, hq⟩, -⟩, hcount⟩ := persists_foldl h hops
  have hlive : (ops.foldl Ledger.step w).Live e' ↔ .release e.arena ∉ ops := by
    rw [Live, harena, hera, hcount, he, ← List.count_eq_zero]
    omega
  rw [← hsymbol, hfaithful.ask_entry he', hlive, hq]

theorem run_append (before after : List TableOp) (op : TableOp) :
    run (before ++ op :: after) = after.foldl step ((run before).step op) := by
  rw [run, List.foldl_append, List.foldl_cons]
  rfl

theorem WithinBounds.before {before after : List TableOp} (h : WithinBounds (before ++ after)) : WithinBounds before :=
  fun ops hops => h ops (hops.trans (List.prefix_append _ _))

/-- What becomes of a symbol in a run.  From its creation until its arena is released it answers with what was given,
unless this is changed; its parent is the one that was set last. -/
structure Remembers (ops : List TableOp) : Prop where
  created : ∀ before k new after s t, ops = before ++ .create k new :: after →
    (run before).table.perform (.create k new) = .ok (.symbol s, t) →
    ∀ q, (∀ c, .change s c ∈ after → c.datum ≠ q) → ∀ r, ((run ops).table.perform (.ask s q) = .ok r ↔
      .release k ∉ after ∧ ∃ a, new.slot.answer? q = some a ∧ r = (a, (run ops).table))
  inherits : ∀ before h p after r, ops = before ++ .change (some h) (.parent p) :: after →
    (run before).table.perform (.change (some h) (.parent p)) = .ok r →
    (∀ p', .change (some h) (.parent p') ∉ after) → ∀ r, ((run ops).table.perform (.ask (some h) .inherits) = .ok r ↔
      .release h.arena ∉ after ∧ r = (.symbol p, (run ops).table))

theorem persists_create {k : Nat} {new : NewSlot} {t : SymbolTable}
    (h : w.table.perform (.create k new) = .ok (.symbol s, t)) :
    (w.step (.create k new)).Persists ⟨s, k, w.released.count k, new.slot⟩ q ∧
      (w.step (.create k new)).Live ⟨s, k, w.released.count k, new.slot⟩ := by
  have hstep : w.step (.create k new) = ⟨t, w.entries ++ [⟨s, k, w.released.count k, new.slot⟩], w.released⟩ :=
    step_of_ok h
  rw [SymbolTable.perform_create] at h
  obtain ⟨r, hr, hst⟩ := bind_eq_ok.1 h
  obtain ⟨hk, -, rfl⟩ := SymbolTable.create_eq_ok.1 hr
  have ht : (w.table.allocate k new.slot).2 = t := congrArg Prod.snd (Except.ok.inj hst)
  rw [hstep, ← ht]
  exact ⟨⟨⟨_, by simp, rfl, rfl, rfl, rfl⟩, hk.trans_eq (SymbolTable.length_allocate ..).symm⟩, rfl⟩

theorem Sound.persists_parent (hw : w.Sound) {h : Handle} {p : Symbol} {r : Answer × SymbolTable}
    (hchange : w.table.perform (.change (some h) (.parent p)) = .ok r) : ∃ e, e.symbol = some h ∧ e.arena = h.arena ∧
      e.data.answer? .inherits = some (.symbol p) ∧ (w.step (.change (some h) (.parent p))).Persists e .inherits ∧
        (w.step (.change (some h) (.parent p))).Live e := by
  have hstep : w.step (.change (some h) (.parent p)) =
      ⟨r.2, w.entries.map (·.change (some h) (.parent p)), w.released⟩ :=
    step_of_ok hchange
  rw [SymbolTable.perform_change] at hchange
  obtain ⟨t', ht', hr⟩ := bind_eq_ok.1 hchange
  obtain ⟨-, d, hd, rfl⟩ := SymbolTable.setInherits_eq_ok.1 ht'
  obtain ⟨e, he, hsymbol, hlive, hdata⟩ := hw.slot_iff.1 hd
  obtain ⟨handle, hhandle, harena, -⟩ := hw.entry e he
  obtain rfl : handle = h := Option.some.inj (hhandle.symm.trans hsymbol)
  refine ⟨e.change (some handle) (.parent p), by simpa using hsymbol, by simpa using harena.symm, ?_, ?_, ?_⟩
  · rw [LedgerEntry.change, if_pos hsymbol, hdata]
    rfl
  · rw [hstep]
    refine ⟨⟨_, List.mem_map_of_mem he, rfl, rfl, rfl, rfl⟩, ?_⟩
    obtain ⟨handle', a, hhandle', ha, -⟩ := SymbolTable.slot_eq_ok.1 hd
    obtain rfl := Option.some.inj hhandle'
    have hopened : handle.arena < w.table.arenas.length := (List.getElem?_eq_some_iff.1 ha).1
    have htable := congrArg Prod.snd (Except.ok.inj hr)
    rw [← htable]
    simpa [← harena] using hopened
  · rw [hstep, Live, LedgerEntry.change_arena, LedgerEntry.change_era]
    exact hlive

theorem remembers {ops : List TableOp} (h : WithinBounds ops) : Remembers ops where
  created := by
    rintro before k new after s t rfl hcreate q hq r
    have hfaithful := (sound_run h).faithful
    rw [run_append] at hfaithful ⊢
    obtain ⟨hpersists, hlive⟩ := persists_create (q := q) hcreate
    exact hpersists.ask_iff hlive hq hfaithful
  inherits := by
    rintro before handle p after r rfl hchange hlast r'
    have hfaithful := (sound_run h).faithful
    rw [run_append] at hfaithful ⊢
    obtain ⟨e, hsymbol, harena, hdata, hpersists, hlive⟩ := (sound_run h.before).persists_parent hchange
    have hsame : ∀ c, .change e.symbol c ∈ after → c.datum ≠ .inherits := by
      intro c hc
      cases c with
      | parent p' => exact absurd (hsymbol ▸ hc) (hlast p')
      | submeaning _ | field _ _ | method _ _ | override _ _ => exact nofun
    have hask := hpersists.ask_iff hlive hsame hfaithful (r := r')
    rw [hsymbol, harena, hdata] at hask
    simpa using hask

/-- In every run within bounds the ledger tells what the operations do, and what becomes of every symbol is told by the
operations after its creation. -/
theorem run_faithful {ops : List TableOp} (h : WithinBounds ops) : (run ops).Faithful ∧ Remembers ops :=
  ⟨(sound_run h).faithful, remembers h⟩

theorem Moves.size_le {w' : Ledger} {op : TableOp} (h : w.Moves op w') (k : Nat) :
    w'.released.count k ≤ w.released.count k + 1 ∧ w'.table.size k ≤ w.table.size k + 1 := by
  cases h with
  | same => exact ⟨Nat.le_succ _, Nat.le_succ _⟩
  | opened => exact ⟨Nat.le_succ _, (SymbolTable.size_openArena ..).le.trans (Nat.le_succ _)⟩
  | created => exact ⟨Nat.le_succ _, SymbolTable.size_allocate_le ..⟩
  | @released j =>
    refine ⟨?_, (SymbolTable.size_release_le ..).trans (Nat.le_succ _)⟩
    rw [List.count_append]
    exact Nat.add_le_add_left List.count_le_length _
  | changed => exact ⟨Nat.le_succ _, (SymbolTable.size_put ..).le.trans (Nat.le_succ _)⟩

theorem size_run_le (ops : List TableOp) (k : Nat) :
    (run ops).released.count k ≤ ops.length ∧ (run ops).table.size k ≤ ops.length := by
  induction ops using List.reverseRecOn with
  | nil => exact ⟨Nat.le_refl _, Nat.le_refl _⟩
  | append_singleton ops op ih =>
    have hstep := (moves_step (run ops) op).size_le k
    rw [run_concat, List.length_append, List.length_singleton]
    exact ⟨hstep.1.trans (Nat.succ_le_succ ih.1), hstep.2.trans (Nat.succ_le_succ ih.2)⟩

/-- A run of fewer than 2 ^ 32 operations is within bounds. -/
theorem withinBounds_of_length {ops : List TableOp} (h : ops.length < 4294967296) : WithinBounds ops := by
  intro before hbefore k
  have hlength := hbefore.length_le.trans_lt h
  have hsize := size_run_le before k
  exact ⟨hsize.1.trans_lt hlength, hsize.2.trans hlength.le⟩

/-- A meaning is created after its arena was released, at the index that another one had before. -/
def reuse : List TableOp :=
  [.openArena, .openArena, .create 0 (.meaning "Shape"), .create 1 (.meaning "Shape"), .release 0,
    .create 0 (.meaning "Other")]

/-- The symbol of the released meaning is not revived by the new one, which has the same index. -/
theorem run_faithful_reuse : WithinBounds reuse ∧ (run reuse).Faithful ∧
    (∀ r, (run reuse).table.perform (.ask (some ⟨0, 0, 1⟩) .name) ≠ .ok r) ∧
    (run reuse).table.perform (.ask (some ⟨0, 0, 2⟩) .name) = .ok (.text "Other", (run reuse).table) := by
  have hbounds : WithinBounds reuse := withinBounds_of_length (by decide)
  obtain ⟨hfaithful, hlife⟩ := run_faithful hbounds
  refine ⟨hbounds, hfaithful, fun r hr => ?_, ?_⟩
  · have hreleased := ((hlife.created [.openArena, .openArena] 0 (.meaning "Shape") _ (some ⟨0, 0, 1⟩) _ rfl rfl .name
      (by simp) r).1 hr).1
    exact hreleased (by decide)
  · exact (hlife.created (reuse.take 5) 0 (.meaning "Other") [] (some ⟨0, 0, 2⟩) _ rfl rfl .name
      (by simp) _).2 ⟨by decide, _, rfl, rfl⟩

end Ledger

end MeaningForest

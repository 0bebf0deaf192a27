import MeaningForest.Analysis.Record
import MeaningForest.Proofs.Faultless

/-!
# Symbol tables behind other arenas

A symbol table can be placed behind other arenas (`SymbolTable.behind`): its arenas come after them, and every symbol in
it is shifted by their number.  The operations know symbols by identity only, so on the shifted symbols they do what
they did before, with the same faults, and leave the arenas in front alone.  Hence an analysis is recorded in a table
that was used before as it is in a new one (`Analysis.record_eq`).
-/

namespace MeaningForest

/-! ### Shifted symbols -/

namespace Handle

/-- The handle with the same place in an arena that stands `k` arenas further on. -/
def shift (k : Nat) (h : Handle) : Handle := { h with arena := k + h.arena }

theorem shift_injective (k : Nat) : Function.Injective (shift k) := by
  rintro ⟨i, _, _⟩ ⟨j, _, _⟩ h
  simp only [shift, Handle.mk.injEq] at h ⊢
  exact ⟨Nat.add_left_cancel h.1, h.2⟩

end Handle

/-- The symbol with the same place in an arena that stands `k` arenas further on. -/
def Symbol.shift (k : Nat) (s : Symbol) : Symbol := s.map (Handle.shift k)

@[simp] theorem Symbol.shift_some (k : Nat) (h : Handle) : Symbol.shift k (some h) = some (h.shift k) := rfl

theorem Symbol.shift_injective (k : Nat) : Function.Injective (Symbol.shift k) :=
  Option.map_injective (Handle.shift_injective k)

namespace OrderedMap

variable {κ β β' : Type} [DecidableEq κ]

/-- Changes the values. -/
def mapValues (f : β → β') (m : OrderedMap κ β) : OrderedMap κ β' := ⟨m.entries.map fun e => (e.1, f e.2)⟩

theorem get?_mapValues (f : β → β') (m : OrderedMap κ β) (k : κ) : (m.mapValues f).get? k = (m.get? k).map f := by
  obtain ⟨es⟩ := m
  simp only [get?, mapValues]
  induction es with
  | nil => rfl
  | cons e es ih =>
    rw [List.map_cons, List.lookup_cons, List.lookup_cons, ih]
    split <;> rfl

theorem set_mapValues (f : β → β') (m : OrderedMap κ β) (k : κ) (v : β) :
    (m.mapValues f).set k (f v) = (m.set k v).mapValues f := by
  obtain ⟨es⟩ := m
  simp only [set, mapValues, OrderedMap.mk.injEq]
  induction es with
  | nil => rfl
  | cons e es ih =>
    simp only [List.map_cons, setEntries, ih]
    split <;> rfl

end OrderedMap

namespace OverrideTree

variable {κ κ' γ : Type}

/-- Changes the keys. -/
def mapKeys (f : κ → κ') : OverrideTree κ γ → OverrideTree κ' γ
  | nil => nil
  | node key code below rest => node (f key) code (below.mapKeys f) (rest.mapKeys f)

theorem mapKeys_chain (f : κ → κ') (code : γ) (k : κ) (path : List κ) :
    (chain code k path).mapKeys f = chain code (f k) (path.map f) := by
  induction path generalizing k with
  | nil => rfl
  | cons j path ih => rw [List.map_cons, chain, chain, mapKeys, ih]; rfl

theorem mapKeys_register [DecidableEq κ] [DecidableEq κ'] {f : κ → κ'} (hf : Function.Injective f) (code : γ)
    (t : OverrideTree κ γ) (k : κ) (path : List κ) :
    (t.register code k path).mapKeys f = (t.mapKeys f).register code (f k) (path.map f) := by
  induction t generalizing k path with
  | nil => simpa [mapKeys, register] using mapKeys_chain f code k path
  | node key held below rest ihb ihr =>
    -- `register` goes where the keys are equal, and `f` does not make different keys equal
    rw [mapKeys, register.eq_def, register.eq_def]
    by_cases hk : key = k
    · cases path with
      | nil => simp [hk, mapKeys]
      | cons j path => simp [hk, mapKeys, ihb]
    · simp [hk, hf.ne hk, mapKeys, ihr]

end OverrideTree

/-- What is known of a meaning, with all symbols shifted. -/
def MeaningSlot.shift (k : Nat) (d : MeaningSlot) : MeaningSlot :=
  { name := d.name
    inherits := Symbol.shift k d.inherits
    submeanings := d.submeanings.map (Symbol.shift k)
    methods := d.methods.mapValues (Symbol.shift k)
    fields := d.fields.mapValues (Symbol.shift k) }

/-- What is known of a method, with all symbols shifted. -/
def MethodSlot.shift (k : Nat) (d : MethodSlot) : MethodSlot :=
  { d with definedIn := Symbol.shift k d.definedIn, mapping := d.mapping.mapKeys (Symbol.shift k) }

/-- What a symbol stands for, with all symbols in it shifted. -/
def Slot.shift (k : Nat) : Slot → Slot
  | meaning d => meaning (d.shift k)
  | field d => field d
  | method d => method (d.shift k)

/-- An arena that stands `k` places further on. -/
def Arena.shift (k : Nat) (a : Arena Slot) : Arena Slot :=
  { id := k + a.id, slots := a.slots.map (Slot.shift k), generation := a.generation }

theorem Arena.read_shift (k : Nat) (a : Arena Slot) (h : Handle) :
    (a.shift k).read (some (h.shift k)) = (a.read (some h)).map (Slot.shift k) := by
  simp only [read, shift, Handle.shift, ne_eq, Nat.add_left_cancel_iff, List.getElem?_map]
  split
  · rfl
  · split
    · rfl
    · cases a.slots[h.index.toNat]? <;> rfl

namespace SymbolTable

/-! ### Tables behind arenas -/

variable (front : List (Arena Slot)) (t : SymbolTable)

/-- The table with its arenas behind others. -/
def behind : SymbolTable := ⟨front ++ t.arenas.map (Arena.shift front.length)⟩

@[simp] theorem behind_empty : ({} : SymbolTable).behind front = ⟨front⟩ := by simp [behind]

theorem getElem?_behind (i : Nat) :
    (t.behind front).arenas[front.length + i]? = (t.arenas[i]?).map (Arena.shift front.length) := by
  rw [behind, List.getElem?_append_right (Nat.le_add_right _ _), Nat.add_sub_cancel_left, List.getElem?_map]

theorem set_behind {i : Nat} {a : Arena Slot} :
    (t.behind front).arenas.set (front.length + i) (a.shift front.length) =
      (behind front ⟨t.arenas.set i a⟩).arenas := by
  rw [behind, behind, List.set_append_right _ _ (Nat.le_add_right _ _), Nat.add_sub_cancel_left, List.map_set]

theorem openArena_behind :
    (t.behind front).openArena = (front.length + t.openArena.1, t.openArena.2.behind front) := by
  simp [openArena, behind, Arena.shift]

theorem allocate_behind (k : Nat) (x : Slot) :
    (t.behind front).allocate (front.length + k) (x.shift front.length) =
      (Symbol.shift front.length (t.allocate k x).1, (t.allocate k x).2.behind front) := by
  rw [allocate, allocate, getElem?_behind]
  cases t.arenas[k]? with
  | none => rfl
  | some a =>
    have hnew : (a.shift front.length).allocate (x.shift front.length) =
        ((a.allocate x).1.shift front.length, (a.allocate x).2.shift front.length) := by
      simp [Arena.allocate, Arena.shift, Handle.shift]
    simp only [Option.map_some, hnew, set_behind]
    rfl

theorem slot_behind (s : Symbol) :
    (t.behind front).slot (Symbol.shift front.length s) = (t.slot s).map (Slot.shift front.length) := by
  cases s with
  | none => rfl
  | some h =>
    have harena : (h.shift front.length).arena = front.length + h.arena := rfl
    rw [Symbol.shift_some, slot, slot, harena, getElem?_behind]
    cases t.arenas[h.arena]? with
    | none => rfl
    | some a => exact Arena.read_shift front.length a h

theorem map_modify {α β : Type} {f : α → β} {g : α → α} {g' : β → β} (h : ∀ a, g' (f a) = f (g a)) (l : List α)
    (i : Nat) : (l.map f).modify i g' = (l.modify i g).map f := by
  apply List.ext_getElem?
  intro j
  rw [List.getElem?_modify, List.getElem?_map, List.getElem?_map, List.getElem?_modify]
  cases l[j]? with
  | none => rfl
  | some a =>
    by_cases hij : i = j
    · simp [hij, h]
    · simp [hij]

theorem put_behind (s : Symbol) (x : Slot) :
    (t.behind front).put (Symbol.shift front.length s) (x.shift front.length) = (t.put s x).behind front := by
  cases s with
  | none => rfl
  | some h =>
    have hput : ∀ a : Arena Slot,
        { a.shift front.length with
          slots := (a.shift front.length).slots.set h.index.toNat (x.shift front.length) } =
        Arena.shift front.length { a with slots := a.slots.set h.index.toNat x } := by
      intro a
      simp [Arena.shift, List.map_set]
    simp only [Symbol.shift_some, put, behind, Handle.shift, SymbolTable.mk.injEq]
    rw [List.modify, List.modifyTailIdx_add]
    exact congrArg (front ++ ·) (map_modify hput t.arenas h.arena)

/-! ### Operations -/

theorem meaning_behind (s : Symbol) : (t.behind front).meaning (Symbol.shift front.length s) =
    (t.meaning s).map (MeaningSlot.shift front.length) := by
  rw [meaning, meaning, slot_behind]
  rcases t.slot s with e | (d | d | d) <;> rfl

theorem method_behind (s : Symbol) : (t.behind front).method (Symbol.shift front.length s) =
    (t.method s).map (MethodSlot.shift front.length) := by
  rw [method, method, slot_behind]
  rcases t.slot s with e | (d | d | d) <;> rfl

theorem modifyMeaning_behind (s : Symbol) {f g : MeaningSlot → MeaningSlot}
    (h : ∀ d, g (d.shift front.length) = (f d).shift front.length) :
    (t.behind front).modifyMeaning (Symbol.shift front.length s) g =
      (t.modifyMeaning s f).map (behind front) := by
  rw [modifyMeaning_def, modifyMeaning_def, meaning_behind]
  cases t.meaning s with
  | error e => rfl
  | ok d =>
    refine congrArg Except.ok ?_
    rw [h]
    exact put_behind front t s (.meaning (f d))

theorem setInherits_behind (s p : Symbol) :
    (t.behind front).setInherits (Symbol.shift front.length s) (Symbol.shift front.length p) =
      (t.setInherits s p).map (behind front) := by
  have hmodify := modifyMeaning_behind front t s (f := fun d => { d with inherits := p })
    (g := fun d => { d with inherits := Symbol.shift front.length p }) fun _ => rfl
  cases p with
  | none => exact hmodify
  | some p =>
    -- a parent that is there is read first
    rw [Symbol.shift_some] at hmodify ⊢
    simp only [setInherits_def, Option.isSome_some, if_true, hmodify]
    rw [← Symbol.shift_some, meaning_behind]
    cases t.meaning (some p) <;> rfl

theorem addSubmeaning_behind (s sub : Symbol) :
    (t.behind front).addSubmeaning (Symbol.shift front.length s) (Symbol.shift front.length sub) =
      (t.addSubmeaning s sub).map (behind front) :=
  modifyMeaning_behind front t s fun d => by simp [MeaningSlot.shift]

theorem setField_behind (s : Symbol) (key : Text) (field : Symbol) :
    (t.behind front).setField (Symbol.shift front.length s) key (Symbol.shift front.length field) =
      (t.setField s key field).map (behind front) :=
  modifyMeaning_behind front t s fun d => by simp [MeaningSlot.shift, OrderedMap.set_mapValues]

theorem setMethod_behind (s : Symbol) (key : Text) (method : Symbol) :
    (t.behind front).setMethod (Symbol.shift front.length s) key (Symbol.shift front.length method) =
      (t.setMethod s key method).map (behind front) :=
  modifyMeaning_behind front t s fun d => by simp [MeaningSlot.shift, OrderedMap.set_mapValues]

theorem createMethod_behind (k : Nat) (name : Text) (m : Symbol) (doc : Text) :
    (t.behind front).createMethod (front.length + k) name (Symbol.shift front.length m) doc =
      (t.createMethod k name m doc).map fun x => (Symbol.shift front.length x.1, x.2.behind front) := by
  rw [createMethod_def, createMethod_def, meaning_behind]
  cases t.meaning m with
  | error e => rfl
  | ok d => exact congrArg Except.ok (allocate_behind front t k (.method { name, definedIn := m, doc }))

theorem registerOverride_behind (m : Symbol) (path : List Symbol) (code : Text) :
    (t.behind front).registerOverride (Symbol.shift front.length m) (path.map (Symbol.shift front.length)) code =
      (t.registerOverride m path code).map (behind front) := by
  cases path with
  | nil => rfl
  | cons k path =>
    rw [List.map_cons, registerOverride_cons, registerOverride_cons, method_behind]
    cases t.method m with
    | error e => rfl
    | ok d =>
      have hmapping := OverrideTree.mapKeys_register (Symbol.shift_injective front.length) code d.mapping k path
      refine congrArg Except.ok (Eq.trans ?_
        (put_behind front t m (.method { d with mapping := d.mapping.register code k path })))
      simp only [Slot.shift, MethodSlot.shift, hmapping]

end SymbolTable

/-! ### Recording -/

namespace Analysis

namespace Recording

variable (front : List (Arena Slot)) (r : Recording)

/-- The recording with its table behind other arenas. -/
def behind : Recording :=
  { table := r.table.behind front
    arena := front.length + r.arena
    meanings := r.meanings.mapValues (Symbol.shift front.length) }

theorem symbol_behind (m : Text) : (r.behind front).symbol m = Symbol.shift front.length (r.symbol m) := by
  rw [symbol, behind, OrderedMap.get?_mapValues, symbol]
  cases r.meanings.get? m <;> rfl

theorem addMeaning_behind (m : Text) : (r.behind front).addMeaning m = (r.addMeaning m).behind front := by
  have hcreate := SymbolTable.allocate_behind front r.table r.arena (.meaning { name := m })
  simp only [addMeaning, SymbolTable.createMeaning, behind, ← OrderedMap.set_mapValues]
  rw [show (Slot.meaning { name := m }).shift front.length = .meaning { name := m } from rfl] at hcreate
  rw [hcreate]

theorem foldl_addMeaning_behind (names : List Text) :
    names.foldl addMeaning (r.behind front) = (names.foldl addMeaning r).behind front := by
  induction names generalizing r with
  | nil => rfl
  | cons m names ih => rw [List.foldl_cons, List.foldl_cons, addMeaning_behind, ih]

theorem addParent_behind (f : Forest) (m : Text) :
    addParent f (r.behind front) m = (addParent f r m).map (behind front) := by
  rw [addParent, addParent]
  cases f.parent? m with
  | none => rfl
  | some p =>
    simp only [symbol_behind]
    rw [show (r.behind front).table = r.table.behind front from rfl, SymbolTable.setInherits_behind]
    cases r.table.setInherits (r.symbol m) (r.symbol p) <;> rfl

theorem addSubmeaning_behind (f : Forest) (m : Text) :
    addSubmeaning f (r.behind front) m = (addSubmeaning f r m).map (behind front) := by
  rw [addSubmeaning, addSubmeaning]
  cases f.parent? m with
  | none => rfl
  | some p =>
    simp only [symbol_behind]
    rw [show (r.behind front).table = r.table.behind front from rfl, SymbolTable.addSubmeaning_behind]
    cases r.table.addSubmeaning (r.symbol p) (r.symbol m) <;> rfl

theorem addField_behind (m : Text) (x : FieldSlot) :
    addField m (r.behind front) x = (addField m r x).map (behind front) := by
  have hcreate : (r.behind front).table.createField (r.behind front).arena x =
      (Symbol.shift front.length (r.table.createField r.arena x).1, (r.table.createField r.arena x).2.behind front) :=
    SymbolTable.allocate_behind front r.table r.arena (.field x)
  simp only [addField, hcreate, symbol_behind, SymbolTable.setField_behind]
  cases (r.table.createField r.arena x).2.setField (r.symbol m) x.name (r.table.createField r.arena x).1 <;> rfl

theorem addMethod_behind (m : Text) (g : Method) :
    addMethod m (r.behind front) g = (addMethod m r g).map (behind front) := by
  have hcreate : (r.behind front).table.createMethod (r.behind front).arena g.name _ g.decl.doc = _ :=
    SymbolTable.createMethod_behind front r.table r.arena g.name (r.symbol m) g.decl.doc
  simp only [addMethod, symbol_behind, hcreate]
  cases r.table.createMethod r.arena g.name (r.symbol m) g.decl.doc with
  | error e => rfl
  | ok x =>
    simp only [Except.map, bind, Except.bind, SymbolTable.setMethod_behind]
    cases x.2.setMethod (r.symbol m) g.name x.1 <;> rfl

theorem addOverride_behind (o : Override) : addOverride (r.behind front) o = (addOverride r o).map (behind front) := by
  have hread : (r.behind front).table.meaning _ = _ :=
    SymbolTable.meaning_behind front r.table (r.symbol o.base.owner)
  simp only [addOverride, symbol_behind, hread]
  cases r.table.meaning (r.symbol o.base.owner) with
  | error e => rfl
  | ok d =>
    have hbase : ((d.shift front.length).methods.get? o.base.name).getD none =
        Symbol.shift front.length ((d.methods.get? o.base.name).getD none) := by
      rw [MeaningSlot.shift, OrderedMap.get?_mapValues]
      cases d.methods.get? o.base.name <;> rfl
    have hpath : (o.path.map fun m => Symbol.shift front.length (r.symbol m)) =
        (o.path.map r.symbol).map (Symbol.shift front.length) := by
      rw [List.map_map]
      rfl
    simp only [Except.map, bind, Except.bind, hbase]
    rw [show (r.behind front).symbol = _ from funext (symbol_behind front r), hpath,
      show (r.behind front).table = r.table.behind front from rfl, SymbolTable.registerOverride_behind]
    cases r.table.registerOverride _ (o.path.map r.symbol) o.call.text <;> rfl

theorem addProfile_behind (p : Profile) : addProfile (r.behind front) p = (addProfile r p).map (behind front) := by
  rw [addProfile, addProfile, foldlM_map (fun r x => addField_behind front r p.name x)]
  cases p.fields.foldlM (addField p.name) r with
  | error e => rfl
  | ok r₁ =>
    simp only [Except.map, bind, Except.bind]
    rw [foldlM_map (fun r g => addMethod_behind front r p.name g)]
    cases p.methods.foldlM (addMethod p.name) r₁ with
    | error e => rfl
    | ok r₂ => exact foldlM_map (addOverride_behind front) p.overrides r₂

end Recording

variable (a : Analysis) (front : List (Arena Slot)) (t : SymbolTable)

/-- A new arena with symbols for the meanings. -/
def started : Recording :=
  a.forest.names.foldl Recording.addMeaning { table := t.openArena.2, arena := t.openArena.1 }

/-- What is recorded once the meanings have symbols. -/
def recordFrom (r : Recording) : Except Fault Recording := do
  let r ← a.forest.names.foldlM (Recording.addParent a.forest) r
  let r ← a.forest.names.foldlM (Recording.addSubmeaning a.forest) r
  a.profiles.foldlM Recording.addProfile r

theorem record_eq_fill : a.record t = a.recordFrom (a.started t) := rfl

theorem started_behind : a.started (t.behind front) = (a.started t).behind front := by
  rw [started, SymbolTable.openArena_behind, started, ← Recording.foldl_addMeaning_behind]
  rfl

theorem fill_behind (r : Recording) : a.recordFrom (r.behind front) =
    (a.recordFrom r).map (Recording.behind front) := by
  rw [recordFrom, recordFrom, foldlM_map (fun r m => Recording.addParent_behind front r a.forest m)]
  cases a.forest.names.foldlM (Recording.addParent a.forest) r with
  | error e => rfl
  | ok r₁ =>
    simp only [Except.map, bind, Except.bind]
    rw [foldlM_map (fun r m => Recording.addSubmeaning_behind front r a.forest m)]
    cases a.forest.names.foldlM (Recording.addSubmeaning a.forest) r₁ with
    | error e => rfl
    | ok r₂ => exact foldlM_map (Recording.addProfile_behind front) a.profiles r₂

/-- An analysis is recorded behind other arenas as it is without them. -/
theorem record_behind : a.record (t.behind front) = (a.record t).map (Recording.behind front) := by
  rw [record_eq_fill, record_eq_fill, started_behind, fill_behind]

/-- In a table that was used before an analysis is recorded as in a new one. -/
theorem record_eq : a.record t = (a.record {}).map (Recording.behind t.arenas) := by
  rw [← record_behind, SymbolTable.behind_empty]

end Analysis

end MeaningForest

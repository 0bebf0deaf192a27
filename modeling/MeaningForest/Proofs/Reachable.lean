import MeaningForest.Proofs.Entries
import MeaningForest.Proofs.Relocation

/-!
# Symbols that can be reached

From a symbol others can be obtained: what it stands for mentions its parent, its members and so on (`Slot.symbols`).
Recording an analysis stores only symbols of its own arena (`SymbolTable.Live`), so whatever is obtained from the
symbols of the meanings belongs to this arena and can be read (`Analysis.Recording.Kept`).
-/

namespace MeaningForest

theorem OrderedMap.mem_values_set {κ β : Type} [DecidableEq κ] {m : OrderedMap κ β} {k : κ} {v w : β}
    (h : w ∈ (m.set k v).values) : w = v ∨ w ∈ m.values := by
  obtain ⟨es⟩ := m
  simp only [set, values] at h ⊢
  induction es with
  | nil => simpa [setEntries] using h
  | cons e es ih =>
    rw [setEntries] at h
    split at h
    · rcases List.mem_cons.1 h with h | h
      · exact .inl h
      · exact .inr (List.mem_cons_of_mem _ h)
    · rcases List.mem_cons.1 h with h | h
      · exact .inr (by simp [h])
      · exact (ih h).imp_right (List.mem_cons_of_mem _)

theorem OrderedMap.mem_values_of_get? {κ β : Type} [DecidableEq κ] {m : OrderedMap κ β} {k : κ} {v : β}
    (h : m.get? k = some v) : v ∈ m.values := by
  obtain ⟨es⟩ := m
  simp only [get?, values] at h ⊢
  induction es with
  | nil => cases h
  | cons e es ih =>
    rw [List.lookup_cons] at h
    split at h
    · exact Option.some.inj h ▸ List.mem_cons_self
    · exact List.mem_cons_of_mem _ (ih h)

namespace OverrideTree

variable {κ γ : Type}

/-- All keys in a tree. -/
def keys : OverrideTree κ γ → List κ
  | nil => []
  | node key _ below rest => key :: (below.keys ++ rest.keys)

theorem mem_keys_chain {code : γ} {k x : κ} {path : List κ} (h : x ∈ (chain code k path).keys) : x ∈ k :: path := by
  induction path generalizing k with
  | nil => simpa [chain, keys] using h
  | cons j path ih =>
    rw [chain, keys, keys, List.append_nil] at h
    exact (List.mem_cons.1 h).elim (fun h => by simp [h]) fun h => List.mem_cons_of_mem _ (ih h)

theorem mem_keys_register [DecidableEq κ] {code : γ} {t : OverrideTree κ γ} {k x : κ} {path : List κ}
    (h : x ∈ (t.register code k path).keys) : x ∈ k :: path ∨ x ∈ t.keys := by
  induction t generalizing k path with
  | nil => exact .inl (mem_keys_chain (by simpa [register] using h))
  | node key held below rest ihb ihr =>
    rw [register.eq_def] at h
    by_cases hk : key = k
    · cases path with
      | nil => simp_all [keys]
      | cons j path =>
        simp only [hk, if_true, keys, List.mem_cons, List.mem_append] at h ⊢
        rcases h with h | h | h
        · exact .inl (.inl h)
        · have := ihb h
          grind
        · exact .inr (.inr (.inr h))
    · simp only [hk, if_false, keys, List.mem_cons, List.mem_append] at h ⊢
      rcases h with h | h | h
      · exact .inr (.inl h)
      · exact .inr (.inr (.inl h))
      · have := ihr h
        grind

end OverrideTree

def MeaningSlot.symbols (d : MeaningSlot) : List Symbol :=
  d.inherits :: (d.submeanings ++ (d.methods.values ++ d.fields.values))

def MethodSlot.symbols (d : MethodSlot) : List Symbol := d.definedIn :: d.mapping.keys

/-- The symbols that can be obtained from what a symbol stands for. -/
def Slot.symbols : Slot → List Symbol
  | meaning d => d.symbols
  | field _ => []
  | method d => d.symbols

namespace SymbolTable

variable {t t' : SymbolTable} {k : Nat} {s : Symbol}

/-- A symbol of an arena that can be read, or none. -/
def Live (t : SymbolTable) (k : Nat) (s : Symbol) : Prop := ∀ h, s = some h → h.arena = k ∧ ∃ x, t.slot s = .ok x

theorem live_none : t.Live k none := by
  intro h hs
  cases hs

/-- The symbols of an arena mention symbols of this arena only. -/
structure Closed (t : SymbolTable) (k : Nat) : Prop where
  arena : ∃ a, t.arenas[k]? = some a ∧ a.id = k
  live : ∀ s x, t.Live k s → t.slot s = .ok x → ∀ z ∈ x.symbols, t.Live k z

/-- What can be read in one table can be read in the other. -/
def Keeps (t t' : SymbolTable) : Prop := ∀ s x, t.slot s = .ok x → ∃ y, t'.slot s = .ok y

theorem Live.mono (h : t.Live k s) (ht : Keeps t t') : t'.Live k s := by
  intro new hs
  obtain ⟨harena, x, hx⟩ := h new hs
  exact ⟨harena, ht s x hx⟩

theorem keeps_put {x : Slot} (hs : t.slot s = .ok x) (y : Slot) : Keeps t (t.put s y) := by
  intro z w hz
  rw [slot_put hs]
  split
  · exact ⟨y, rfl⟩
  · exact ⟨w, hz⟩

theorem Closed.put (h : t.Closed k) {x : Slot} (hs : t.slot s = .ok x) {y : Slot} (hy : ∀ z ∈ y.symbols, t.Live k z) :
    (t.put s y).Closed k where
  arena := by
    obtain ⟨a, ha, hid⟩ := h.arena
    cases s with
    | none => exact ⟨a, ha, hid⟩
    | some new =>
      by_cases hk : new.arena = k
      · exact ⟨{ a with slots := a.slots.set new.index.toNat y }, by simp [put, hk, ha], hid⟩
      · exact ⟨a, by rw [put, List.getElem?_modify_ne _ _ hk, ha], hid⟩
  live := by
    intro z w hz hw u hu
    rw [slot_put hs] at hw
    split at hw
    · obtain rfl := Except.ok.inj hw
      exact (hy u hu).mono (keeps_put hs y)
    · have hz' : t.Live k z := fun new hnew => ⟨(hz new hnew).1, w, hw⟩
      exact (h.live z w hz' hw u hu).mono (keeps_put hs y)

theorem keeps_allocate (t : SymbolTable) (k : Nat) (x : Slot) : Keeps t (t.allocate k x).2 :=
  fun _ y hs => ⟨y, slot_allocate hs k x⟩

theorem Closed.allocate (h : t.Closed k) {x : Slot} (hx : ∀ z ∈ x.symbols, t.Live k z) :
    (t.allocate k x).2.Closed k ∧ (t.allocate k x).2.Live k (t.allocate k x).1 ∧ (t.allocate k x).1 ≠ none := by
  obtain ⟨a, ha, hid⟩ := h.arena
  have hk : k < t.arenas.length := (List.getElem?_eq_some_iff.1 ha).1
  have hallocate : t.allocate k x = (some (a.allocate x).1, ⟨t.arenas.set k (a.allocate x).2⟩) := by
    rw [SymbolTable.allocate, ha]
  have hnew : (t.allocate k x).2.arenas[k]? = some (a.allocate x).2 := by simp [hallocate, hk]
  have hkeeps := keeps_allocate t k x
  -- the index of the new symbol may be taken modulo 2 ^ 32, so it reads some slot of the arena, not always its own
  refine ⟨⟨⟨(a.allocate x).2, hnew, hid⟩, ?_⟩, ?_, by simp [hallocate]⟩
  · intro z w hz hw u hu
    obtain ⟨old, b, rfl, hb, harena, hgeneration, hw⟩ := slot_eq_ok.1 hw
    have hold : old.arena = k := (hz old rfl).1
    rw [hold, hnew] at hb
    obtain rfl := Option.some.inj hb
    -- the slot was there before, or it is the new one
    rcases Nat.lt_or_ge old.index.toNat a.slots.length with hlt | hge
    · rw [Arena.allocate, List.getElem?_append_left hlt] at hw
      have hslot : t.slot (some old) = .ok w :=
        slot_eq_ok.2 ⟨old, a, rfl, hold ▸ ha, harena, hgeneration, hw⟩
      exact (h.live _ w (fun y hy => ⟨(hz y hy).1, w, hslot⟩) hslot u hu).mono hkeeps
    · rw [Arena.allocate, List.getElem?_append_right hge] at hw
      obtain rfl : w = x := by simpa using List.mem_of_getElem? hw
      exact (hx u hu).mono hkeeps
  · intro new hs
    rw [hallocate] at hs
    obtain rfl := Option.some.inj hs
    have hindex : (a.allocate x).1.index.toNat < (a.allocate x).2.slots.length := by
      have hmod : a.slots.length % 4294967296 ≤ a.slots.length := Nat.mod_le _ _
      simp only [Arena.allocate, List.length_append, List.length_singleton]
      exact Nat.lt_succ_of_le hmod
    refine ⟨hid, (a.allocate x).2.slots[(a.allocate x).1.index.toNat], slot_eq_ok.2 ?_⟩
    have harena : (a.allocate x).1.arena = k := hid
    exact ⟨_, (a.allocate x).2, by rw [hallocate], harena ▸ hnew, rfl, rfl, List.getElem?_eq_getElem hindex⟩

end SymbolTable

namespace Analysis

namespace Recording

open SymbolTable

variable {r r' : Recording} {k : Nat} {m : Text}

/-- Everything in the arena of a recording, and the symbols of its meanings, belongs to this arena. -/
structure Kept (k : Nat) (r : Recording) : Prop where
  arena : r.arena = k
  closed : r.table.Closed k
  meanings : ∀ z ∈ r.meanings.values, r.table.Live k z
  present : none ∉ r.meanings.values

theorem Kept.symbol (h : Kept k r) (m : Text) : r.table.Live k (r.symbol m) := by
  rw [Recording.symbol]
  cases hm : r.meanings.get? m with
  | none => exact live_none
  | some s => exact h.meanings s (OrderedMap.mem_values_of_get? hm)

theorem Kept.allocate (h : Kept k r) {x : Slot} (hx : ∀ z ∈ x.symbols, r.table.Live k z) :
    Kept k { r with table := (r.table.allocate r.arena x).2 } ∧
      (r.table.allocate r.arena x).2.Live k (r.table.allocate r.arena x).1 ∧ (r.table.allocate r.arena x).1 ≠ none := by
  rw [h.arena]
  obtain ⟨hclosed, hlive⟩ := h.closed.allocate hx
  exact ⟨⟨rfl, hclosed, fun z hz => (h.meanings z hz).mono (keeps_allocate _ _ _), h.present⟩, hlive⟩

/-- A meaning changes, and what is new in it belongs to the arena. -/
theorem Kept.modify (h : Kept k r) {s : Symbol} (hs : r.table.Live k s) {f : MeaningSlot → MeaningSlot}
    {t : SymbolTable} (ht : r.table.modifyMeaning s f = .ok t)
    (hf : ∀ d, ∀ z ∈ (f d).symbols, z ∈ d.symbols ∨ r.table.Live k z) : Kept k { r with table := t } := by
  obtain ⟨d, hd, rfl⟩ := modifyMeaning_eq_ok.1 ht
  have hslot := meaning_eq_ok.1 hd
  refine ⟨h.arena, h.closed.put hslot fun z hz => ?_, fun z hz => (h.meanings z hz).mono (keeps_put hslot _), h.present⟩
  rcases hf d z hz with hz | hz
  · exact h.closed.live s _ hs hslot z hz
  · exact hz

/-! ### Steps -/

theorem addMeaning_kept (h : Kept k r) : Kept k (r.addMeaning m) := by
  obtain ⟨hkept, hlive, hpresent⟩ := h.allocate (x := .meaning { name := m }) (by
    intro z hz
    obtain rfl : z = none := by simpa [Slot.symbols, MeaningSlot.symbols, OrderedMap.values] using hz
    exact live_none)
  refine ⟨h.arena, hkept.closed, fun z hz => ?_, fun hz => ?_⟩
  · rcases OrderedMap.mem_values_set hz with rfl | hz
    · exact hlive
    · exact hkept.meanings z hz
  · rcases OrderedMap.mem_values_set hz with hnone | hz
    · exact hpresent hnone.symm
    · exact h.present hz

theorem addParent_kept {f : Forest} (h : Kept k r) (hr : addParent f r m = .ok r') : Kept k r' := by
  rw [addParent] at hr
  split at hr
  · exact Except.ok.inj hr ▸ h
  · obtain ⟨t, ht, hr⟩ := bind_eq_ok.1 hr
    obtain rfl := Except.ok.inj hr
    refine h.modify (h.symbol m) (modifyMeaning_of_setInherits ht) fun d z hz => ?_
    rcases List.mem_cons.1 hz with rfl | hz
    · exact .inr (h.symbol _)
    · exact .inl (List.mem_cons_of_mem _ hz)

theorem addSubmeaning_kept {f : Forest} (h : Kept k r) (hr : addSubmeaning f r m = .ok r') : Kept k r' := by
  rw [addSubmeaning] at hr
  split at hr
  · exact Except.ok.inj hr ▸ h
  · obtain ⟨t, ht, hr⟩ := bind_eq_ok.1 hr
    obtain rfl := Except.ok.inj hr
    refine h.modify (h.symbol _) ht fun d z hz => ?_
    simp only [MeaningSlot.symbols, List.mem_cons, List.mem_append, List.not_mem_nil, or_false] at hz ⊢
    have := h.symbol m
    grind

theorem addField_kept (h : Kept k r) {x : FieldSlot} (hr : addField m r x = .ok r') : Kept k r' := by
  obtain ⟨t, ht, hr⟩ := bind_eq_ok.1 hr
  obtain rfl := Except.ok.inj hr
  obtain ⟨hkept, hlive, -⟩ := h.allocate (x := .field x) (by simp [Slot.symbols])
  refine hkept.modify ((h.symbol m).mono (keeps_allocate _ _ _)) ht fun d z hz => ?_
  simp only [MeaningSlot.symbols, List.mem_cons, List.mem_append] at hz ⊢
  rcases hz with hz | hz | hz | hz
  · exact .inl (.inl hz)
  · exact .inl (.inr (.inl hz))
  · exact .inl (.inr (.inr (.inl hz)))
  · rcases OrderedMap.mem_values_set hz with rfl | hz
    · exact .inr hlive
    · exact .inl (.inr (.inr (.inr hz)))

theorem addMethod_kept (h : Kept k r) {g : Method} (hr : addMethod m r g = .ok r') : Kept k r' := by
  obtain ⟨⟨s, t⟩, hcreate, hr⟩ := bind_eq_ok.1 hr
  obtain ⟨t', ht', hr⟩ := bind_eq_ok.1 hr
  obtain rfl := Except.ok.inj hr
  have hsymbols : ∀ z ∈ (Slot.method { name := g.name, definedIn := r.symbol m, doc := g.decl.doc }).symbols,
      r.table.Live k z := by
    intro z hz
    obtain rfl : z = r.symbol m := by simpa [Slot.symbols, MethodSlot.symbols, OverrideTree.keys] using hz
    exact h.symbol m
  obtain ⟨hkept, hlive, -⟩ := h.allocate hsymbols
  have hm := (h.symbol m).mono (keeps_allocate r.table r.arena
    (.method { name := g.name, definedIn := r.symbol m, doc := g.decl.doc }))
  rw [allocate_of_createMethod hcreate] at hkept hlive hm
  refine hkept.modify hm ht' fun d z hz => ?_
  simp only [MeaningSlot.symbols, List.mem_cons, List.mem_append] at hz ⊢
  rcases hz with hz | hz | hz | hz
  · exact .inl (.inl hz)
  · exact .inl (.inr (.inl hz))
  · rcases OrderedMap.mem_values_set hz with rfl | hz
    · exact .inr hlive
    · exact .inl (.inr (.inr (.inl hz)))
  · exact .inl (.inr (.inr (.inr hz)))

theorem addOverride_kept (h : Kept k r) {o : Override} (hr : addOverride r o = .ok r') : Kept k r' := by
  obtain ⟨d, hd, hr⟩ := bind_eq_ok.1 hr
  obtain ⟨t, ht, hr⟩ := bind_eq_ok.1 hr
  obtain rfl := Except.ok.inj hr
  cases hpath : o.path.map r.symbol with
  | nil =>
    rw [hpath] at ht
    cases ht
  | cons head path =>
    rw [hpath] at ht
    obtain ⟨e, he, rfl⟩ := registerOverride_eq_ok.1 ht
    have hslot := method_eq_ok.1 he
    -- the overridden method is mentioned by its meaning, and the keys on the path are symbols of meanings
    have hbase : r.table.Live k ((d.methods.get? o.base.name).getD none) := by
      cases hget : d.methods.get? o.base.name with
      | none => exact live_none
      | some s =>
        refine h.closed.live _ _ (h.symbol o.base.owner) (meaning_eq_ok.1 hd) s ?_
        have hs := OrderedMap.mem_values_of_get? hget
        simp [Slot.symbols, MeaningSlot.symbols, hs]
    have hsymbols := h.closed.live _ _ hbase hslot
    refine ⟨h.arena, h.closed.put hslot fun z hz => ?_, fun z hz => (h.meanings z hz).mono (keeps_put hslot _),
      h.present⟩
    rcases List.mem_cons.1 hz with rfl | hz
    · exact hsymbols _ (by simp [Slot.symbols, MethodSlot.symbols])
    · rcases OverrideTree.mem_keys_register hz with hz | hz
      · rw [← hpath] at hz
        obtain ⟨x, -, rfl⟩ := List.mem_map.1 hz
        exact h.symbol x
      · exact hsymbols z (by simp [Slot.symbols, MethodSlot.symbols, hz])

theorem addProfile_kept (h : Kept k r) {p : Profile} (hr : addProfile r p = .ok r') : Kept k r' := by
  obtain ⟨r₁, hr₁, hr⟩ := bind_eq_ok.1 hr
  obtain ⟨r₂, hr₂, hr₃⟩ := bind_eq_ok.1 hr
  have h₁ := foldlM_keeps (P := fun _ r => Kept k r) (fun _ _ _ _ _ _ hs => addField_kept hs) h hr₁
  have h₂ := foldlM_keeps (P := fun _ r => Kept k r) (fun _ _ _ _ _ _ hs => addMethod_kept hs) h₁ hr₂
  exact foldlM_keeps (P := fun _ r => Kept k r) (fun _ _ _ _ _ _ hs => addOverride_kept hs) h₂ hr₃

end Recording

/-- A recording keeps to its own arena, which is a new one. -/
theorem record_kept {a : Analysis} {t : SymbolTable} {r : Recording} (h : a.record t = .ok r) :
    r.Kept t.arenas.length := by
  obtain ⟨r₁, hr₁, hr⟩ := bind_eq_ok.1 ((a.record_eq_fill t).symm.trans h)
  obtain ⟨r₂, hr₂, hr₃⟩ := bind_eq_ok.1 hr
  have hopen : Recording.Kept t.arenas.length { table := t.openArena.2, arena := t.openArena.1 } := by
    refine ⟨rfl, ⟨⟨{ id := t.arenas.length }, by simp [SymbolTable.openArena], rfl⟩, ?_⟩,
      by simp [OrderedMap.values], by simp [OrderedMap.values]⟩
    intro s x hs hx
    -- nothing can be read in an empty arena
    obtain ⟨new, b, rfl, hb, -, -, hslot⟩ := SymbolTable.slot_eq_ok.1 hx
    rw [(hs new rfl).1] at hb
    simp [SymbolTable.openArena] at hb
    simp [← hb] at hslot
  have hstarted : (a.started t).Kept t.arenas.length :=
    List.foldlRecOn (motive := Recording.Kept t.arenas.length) _ _ hopen fun _ hr _ _ => Recording.addMeaning_kept hr
  have h₁ := foldlM_keeps (P := fun _ r => Recording.Kept t.arenas.length r)
    (fun _ _ _ _ _ _ hs => Recording.addParent_kept hs) hstarted hr₁
  have h₂ := foldlM_keeps (P := fun _ r => Recording.Kept t.arenas.length r)
    (fun _ _ _ _ _ _ hs => Recording.addSubmeaning_kept hs) h₁ hr₂
  exact foldlM_keeps (P := fun _ r => Recording.Kept t.arenas.length r)
    (fun _ _ _ _ _ _ hs => Recording.addProfile_kept hs) h₂ hr₃

end Analysis

end MeaningForest

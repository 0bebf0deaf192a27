import MeaningForest.Proofs.Faultless
import MeaningForest.Symbol.Query

/-!
# Operations of symbol tables

What the operations of a symbol table do is said in terms of what can be read: a new symbol reads what was stored, a
replaced one what it was replaced by, and all others stay as they are.  An arena must have room for a new symbol, since
its symbols are counted in 32 bits (`Room`).
-/

namespace MeaningForest.SymbolTable

variable {t : SymbolTable} {s : Symbol} {x : Slot} {k lo n : Nat}

theorem slot_eq_ok : t.slot s = .ok x ↔ ∃ h a, s = some h ∧ t.arenas[h.arena]? = some a ∧ h.arena = a.id ∧
    h.generation = a.generation ∧ a.slots[h.index.toNat]? = some x := by
  constructor
  · intro hs
    cases s with
    | none => cases hs
    | some h =>
      rw [slot] at hs
      split at hs
      · cases hs
      · rename_i a ha
        rw [Arena.read] at hs
        split at hs
        · cases hs
        · rename_i harena
          split at hs
          · cases hs
          · rename_i hgeneration
            split at hs
            · rename_i y hy
              cases hs
              exact ⟨h, a, rfl, ha, not_not.1 harena, not_not.1 hgeneration, hy⟩
            · cases hs
  · rintro ⟨h, a, rfl, ha, harena, hgeneration, hx⟩
    have hread : a.read (some h) = .ok x := by
      simp [Arena.read, ← harena, hgeneration, hx]
    simpa [slot, ha] using hread

/-- An arena that stands in its place, with at least `lo` symbols and room for `n` more. -/
def Room (t : SymbolTable) (k lo n : Nat) : Prop :=
  ∃ a, t.arenas[k]? = some a ∧ a.id = k ∧ lo ≤ a.slots.length ∧ a.slots.length + n ≤ 4294967296

theorem Room.mono (h : t.Room k (lo + 1) n) : t.Room k lo n := by
  obtain ⟨a, ha, hid, hlo, hn⟩ := h
  exact ⟨a, ha, hid, by omega, hn⟩

theorem slot_put (hs : t.slot s = .ok x) (y : Slot) (s' : Symbol) :
    (t.put s y).slot s' = if s' = s then .ok y else t.slot s' := by
  obtain ⟨h, a, rfl, ha, harena, hgeneration, hx⟩ := slot_eq_ok.1 hs
  have hindex : h.index.toNat < a.slots.length := (List.getElem?_eq_some_iff.1 hx).1
  have harenas : ∀ i, (t.put (some h) y).arenas[i]? =
      if h.arena = i then some { a with slots := a.slots.set h.index.toNat y } else t.arenas[i]? := by
    intro i
    by_cases hi : h.arena = i
    · rw [if_pos hi, ← hi, put, List.getElem?_modify_eq, ha]
      rfl
    · rw [if_neg hi, put, List.getElem?_modify_ne _ _ hi]
  cases s' with
  | none => simp [slot]
  | some h' =>
    by_cases hother : h.arena = h'.arena
    · by_cases hgen : h'.generation = a.generation
      · by_cases heq : h' = h
        · rw [if_pos (by rw [heq]), heq]
          exact slot_eq_ok.2 ⟨h, { a with slots := a.slots.set h.index.toNat y }, rfl, by rw [harenas, if_pos rfl],
            harena, hgeneration, by simp [hindex]⟩
        · have hne : h.index.toNat ≠ h'.index.toNat := by
            intro hi
            refine heq ?_
            cases h
            cases h'
            simp_all [UInt32.toNat_inj]
          rw [if_neg (by simpa using heq), slot, slot, harenas, if_pos hother, ← hother, ha]
          simp [Arena.read, List.getElem?_set_ne hne]
      · have heq : h' ≠ h := by
          rintro rfl
          exact hgen hgeneration
        rw [if_neg (by simpa using heq), slot, slot, harenas, if_pos hother, ← hother, ha]
        simp [Arena.read, hgen]
    · have heq : h' ≠ h := by
        rintro rfl
        exact hother rfl
      rw [if_neg (by simpa using heq), slot, slot, harenas, if_neg hother]

theorem room_put (hroom : t.Room k lo n) (s : Symbol) (y : Slot) : (t.put s y).Room k lo n := by
  obtain ⟨a, ha, hid, hlo, hn⟩ := hroom
  cases s with
  | none => exact ⟨a, ha, hid, hlo, hn⟩
  | some h =>
    by_cases harena : h.arena = k
    · refine ⟨{ a with slots := a.slots.set h.index.toNat y }, ?_, hid, by simpa using hlo, by simpa using hn⟩
      rw [← harena] at ha ⊢
      rw [put, List.getElem?_modify_eq, ha]
      rfl
    · exact ⟨a, by rw [put, List.getElem?_modify_ne _ _ harena, ha], hid, hlo, hn⟩

/-- What could be read before a symbol is added can be read afterwards. -/
theorem slot_allocate_of_slot (k : Nat) (x : Slot) {y : Slot} (hs : t.slot s = .ok y) :
    (t.allocate k x).2.slot s = .ok y := by
  obtain ⟨h, b, rfl, hb, harena, hgeneration, hy⟩ := slot_eq_ok.1 hs
  rw [allocate]
  cases ha : t.arenas[k]? with
  | none => exact hs
  | some a =>
    by_cases hsame : k = h.arena
    · subst hsame
      obtain rfl : a = b := Option.some.inj (ha.symm.trans hb)
      have hk : h.arena < t.arenas.length := (List.getElem?_eq_some_iff.1 ha).1
      refine slot_eq_ok.2 ⟨h, (a.allocate x).2, rfl, by simp [hk], harena, hgeneration, ?_⟩
      rw [Arena.allocate, List.getElem?_append_left (List.getElem?_eq_some_iff.1 hy).1]
      exact hy
    · exact slot_eq_ok.2 ⟨h, b, rfl, by rw [List.getElem?_set_ne hsame, hb], harena, hgeneration, hy⟩

/-- A new symbol differs from all that can be read. -/
theorem allocate_spec (hroom : t.Room k lo (n + 1)) (x : Slot) : ∃ h t', t.allocate k x = (some h, t') ∧ h.arena = k ∧
    t'.Room k (lo + 1) n ∧ t'.slot (some h) = .ok x ∧ ∀ s y, t.slot s = .ok y → s ≠ some h ∧ t'.slot s = .ok y := by
  obtain ⟨a, ha, hid, hlo, hn⟩ := hroom
  have hk : k < t.arenas.length := (List.getElem?_eq_some_iff.1 ha).1
  have hindex : (a.allocate x).1.index.toNat = a.slots.length := by
    have hmod : a.slots.length % 4294967296 = a.slots.length := Nat.mod_eq_of_lt (by omega)
    simpa [Arena.allocate] using hmod
  have hnew : (t.arenas.set k (a.allocate x).2)[k]? = some (a.allocate x).2 := by simp [hk]
  refine ⟨(a.allocate x).1, ⟨t.arenas.set k (a.allocate x).2⟩, by rw [allocate, ha], hid, ?_, ?_, ?_⟩
  · refine ⟨(a.allocate x).2, hnew, hid, ?_, ?_⟩
    · simpa [Arena.allocate] using hlo
    · simp only [Arena.allocate, List.length_append, List.length_singleton]
      omega
  · refine slot_eq_ok.2 ⟨_, (a.allocate x).2, rfl, ?_, rfl, rfl, ?_⟩
    · have harena : (a.allocate x).1.arena = k := hid
      rw [harena]
      exact hnew
    · rw [hindex]
      simp [Arena.allocate]
  · intro s y hs
    refine ⟨?_, by simpa [allocate, ha] using slot_allocate_of_slot k x hs⟩
    rintro rfl
    obtain ⟨h, b, hh, hb, -, -, hy⟩ := slot_eq_ok.1 hs
    obtain rfl := Option.some.inj hh
    -- the index of the new symbol was not in use
    have harena : (a.allocate x).1.arena = k := hid
    obtain rfl : a = b := Option.some.inj (ha.symm.trans (harena ▸ hb))
    exact Nat.lt_irrefl _ (hindex ▸ (List.getElem?_eq_some_iff.1 hy).1)

theorem room_openArena (t : SymbolTable) : t.openArena.2.Room t.openArena.1 0 4294967296 :=
  ⟨{ id := t.arenas.length }, by simp [openArena], rfl, Nat.zero_le _, by simp⟩

/-! ### Kinds -/

theorem meaning_eq_ok {d : MeaningSlot} : t.meaning s = .ok d ↔ t.slot s = .ok (.meaning d) := by
  rw [meaning, bind_eq_ok]
  constructor
  · rintro ⟨y, hy, hd⟩
    cases y with
    | meaning e =>
      obtain rfl : e = d := Except.ok.inj hd
      exact hy
    | field e => cases hd
    | method e => cases hd
  · intro h
    exact ⟨_, h, rfl⟩

theorem field_eq_ok {d : FieldSlot} : t.field s = .ok d ↔ t.slot s = .ok (.field d) := by
  rw [field, bind_eq_ok]
  constructor
  · rintro ⟨y, hy, hd⟩
    cases y with
    | meaning e => cases hd
    | field e =>
      obtain rfl : e = d := Except.ok.inj hd
      exact hy
    | method e => cases hd
  · intro h
    exact ⟨_, h, rfl⟩

theorem method_eq_ok {d : MethodSlot} : t.method s = .ok d ↔ t.slot s = .ok (.method d) := by
  rw [method, bind_eq_ok]
  constructor
  · rintro ⟨y, hy, hd⟩
    cases y with
    | meaning e => cases hd
    | field e => cases hd
    | method e =>
      obtain rfl : e = d := Except.ok.inj hd
      exact hy
  · intro h
    exact ⟨_, h, rfl⟩

theorem modifyMeaning_eq_ok {f : MeaningSlot → MeaningSlot} {t' : SymbolTable} :
    t.modifyMeaning s f = .ok t' ↔ ∃ d, t.meaning s = .ok d ∧ t.put s (.meaning (f d)) = t' := by
  simp only [modifyMeaning_def, bind_eq_ok, pure, Except.pure, Except.ok.injEq]

theorem registerOverride_eq_ok {m : Symbol} {path : List Symbol} {code : Text} {t' : SymbolTable} :
    t.registerOverride s (m :: path) code = .ok t' ↔
      ∃ d, t.method s = .ok d ∧ t.put s (.method { d with mapping := d.mapping.register code m path }) = t' := by
  simp only [registerOverride_cons, bind_eq_ok, pure, Except.pure, Except.ok.injEq]

theorem modifyMeaning_spec {d : MeaningSlot} (hs : t.meaning s = .ok d) (f : MeaningSlot → MeaningSlot) :
    ∃ t', t.modifyMeaning s f = .ok t' ∧ (∀ k lo n, t.Room k lo n → t'.Room k lo n) ∧
      ∀ s', t'.slot s' = if s' = s then .ok (.meaning (f d)) else t.slot s' :=
  ⟨t.put s (.meaning (f d)), modifyMeaning_eq_ok.2 ⟨d, hs, rfl⟩, fun _ _ _ h => room_put h s _,
    slot_put (meaning_eq_ok.1 hs) _⟩

theorem setInherits_eq {p : Symbol} {d : MeaningSlot} (hp : t.meaning p = .ok d) (s : Symbol) :
    t.setInherits s p = t.modifyMeaning s fun e => { e with inherits := p } := by
  rw [setInherits_def, hp]
  split <;> rfl

theorem createMethod_eq {m : Symbol} {d : MeaningSlot} (hm : t.meaning m = .ok d) (k : Nat) (name doc : Text) :
    t.createMethod k name m doc = .ok (t.allocate k (.method { name, definedIn := m, doc })) := by
  rw [createMethod_def, hm]
  rfl

theorem registerOverride_spec {d : MethodSlot} (hs : t.method s = .ok d) (code : Text) (m : Symbol)
    (path : List Symbol) : ∃ t', t.registerOverride s (m :: path) code = .ok t' ∧
      (∀ k lo n, t.Room k lo n → t'.Room k lo n) ∧
      ∀ s', t'.slot s' =
        if s' = s then .ok (.method { d with mapping := d.mapping.register code m path }) else t.slot s' :=
  ⟨t.put s (.method { d with mapping := d.mapping.register code m path }),
    registerOverride_eq_ok.2 ⟨d, hs, rfl⟩, fun _ _ _ h => room_put h s _, slot_put (method_eq_ok.1 hs) _⟩

end MeaningForest.SymbolTable

import MeaningForest.Proofs.Sessions

/-!
# The members that symbols list

The symbol of a meaning lists the fields and methods that were recorded for it, in the order in which they were recorded
and nothing else.  Recording goes on only at the end of an arena and changes one meaning at a time, so what the other
symbols list stays as it is (`Lists`).  In the end every meaning lists the fields and methods of its profile
(`Complete.lists`).
-/

namespace MeaningForest

variable {lang : Language}

namespace SymbolTable

variable {t t' : SymbolTable} {s : Symbol}

/-- A symbol that can be read is not touched by a new one. -/
theorem slot_allocate {x : Slot} (hs : t.slot s = .ok x) (k : Nat) (y : Slot) : (t.allocate k y).2.slot s = .ok x := by
  obtain ⟨h, a, rfl, ha, harena, hgeneration, hx⟩ := slot_eq_ok.1 hs
  rw [allocate]
  cases hk : t.arenas[k]? with
  | none => exact hs
  | some b =>
    by_cases hsame : h.arena = k
    · rw [hsame] at ha
      obtain rfl : a = b := Option.some.inj (ha.symm.trans hk)
      have hlt : k < t.arenas.length := (List.getElem?_eq_some_iff.1 ha).1
      refine slot_eq_ok.2 ⟨h, (a.allocate y).2, rfl, by simp [hsame, hlt], harena, hgeneration, ?_⟩
      rw [Arena.allocate, List.getElem?_append_left (List.getElem?_eq_some_iff.1 hx).1]
      exact hx
    · exact slot_eq_ok.2 ⟨h, a, rfl, by simp [List.getElem?_set_ne (Ne.symm hsame), ha], harena, hgeneration, hx⟩

theorem meaning_allocate {d : MeaningSlot} (hs : t.meaning s = .ok d) (k : Nat) (y : Slot) :
    (t.allocate k y).2.meaning s = .ok d :=
  meaning_eq_ok.2 (slot_allocate (meaning_eq_ok.1 hs) k y)

theorem meaning_modifyMeaning {f : MeaningSlot → MeaningSlot} (h : t.modifyMeaning s f = .ok t') {s' : Symbol}
    {d : MeaningSlot} (hs : t.meaning s' = .ok d) : t'.meaning s' = .ok (if s' = s then f d else d) := by
  obtain ⟨e, he, rfl⟩ := modifyMeaning_eq_ok.1 h
  rw [meaning_eq_ok, slot_put (meaning_eq_ok.1 he)]
  split
  · rename_i hsame
    subst hsame
    rw [Except.ok.inj (he.symm.trans hs)]
  · exact meaning_eq_ok.1 hs

theorem modifyMeaning_of_setInherits {p : Symbol} (h : t.setInherits s p = .ok t') :
    t.modifyMeaning s (fun d => { d with inherits := p }) = .ok t' := by
  rw [setInherits_def] at h
  cases p with
  | none => exact h
  | some p =>
    obtain ⟨_, -, hmodify⟩ := bind_eq_ok.1 h
    exact hmodify

theorem allocate_of_createMethod {k : Nat} {name doc : Text} {m : Symbol}
    (h : t.createMethod k name m doc = .ok (s, t')) :
    t.allocate k (.method { name, definedIn := m, doc }) = (s, t') := by
  rw [createMethod_def] at h
  obtain ⟨_, -, hallocate⟩ := bind_eq_ok.1 h
  exact Except.ok.inj hallocate

theorem meaning_registerOverride {m : Symbol} {path : List Symbol} {code : Text}
    (h : t.registerOverride m path code = .ok t') {d : MeaningSlot} (hs : t.meaning s = .ok d) :
    t'.meaning s = .ok d := by
  cases path with
  | nil => cases h
  | cons k path =>
    obtain ⟨e, he, rfl⟩ := registerOverride_eq_ok.1 h
    have hne : s ≠ m := by
      rintro rfl
      cases Except.ok.inj ((meaning_eq_ok.1 hs).symm.trans (method_eq_ok.1 he))
    rw [meaning_eq_ok, slot_put (method_eq_ok.1 he), if_neg hne]
    exact meaning_eq_ok.1 hs

end SymbolTable

namespace Analysis

namespace Recording

/-- The meanings have symbols, and these list fields and methods of the given names, in this order. -/
structure Lists (names : List Text) (σ : Text → Symbol) (fields methods : Text → List Text) (r : Recording) : Prop where
  symbol : r.symbol = σ
  meanings : r.meanings.keys = names
  meaning : ∀ m ∈ names, ∃ d, r.table.meaning (σ m) = .ok d ∧ d.fields.keys = fields m ∧ d.methods.keys = methods m

variable {names : List Text} {σ : Text → Symbol} {F G : Text → List Text} {r r' : Recording} {m : Text}

/-- The names of a meaning with some more at the end. -/
def addNames (F : Text → List Text) (m : Text) (more : List Text) : Text → List Text :=
  fun x => if x = m then F x ++ more else F x

@[simp] theorem addNames_self (F : Text → List Text) (m : Text) (more : List Text) :
    addNames F m more m = F m ++ more :=
  if_pos rfl

theorem addNames_ne (F : Text → List Text) {m x : Text} (more : List Text) (h : x ≠ m) : addNames F m more x = F x :=
  if_neg h

@[simp] theorem addNames_nil (F : Text → List Text) (m : Text) : addNames F m [] = F := by
  funext x
  simp [addNames]

theorem addNames_addNames (F : Text → List Text) (m : Text) (u v : List Text) :
    addNames (addNames F m u) m v = addNames F m (u ++ v) := by
  funext x
  by_cases hx : x = m
  · simp [addNames, hx]
  · simp [addNames, hx]

theorem Lists.allocate (h : Lists names σ F G r) (x : Slot) :
    Lists names σ F G { r with table := (r.table.allocate r.arena x).2 } where
  symbol := h.symbol
  meanings := h.meanings
  meaning := by
    intro m hm
    obtain ⟨d, hd, hkeys⟩ := h.meaning m hm
    exact ⟨d, SymbolTable.meaning_allocate hd r.arena x, hkeys⟩

section

variable (hσ : ∀ x ∈ names, ∀ y ∈ names, σ x = σ y → x = y)

include hσ in
theorem Lists.modify (h : Lists names σ F G r) (hm : m ∈ names) {f : MeaningSlot → MeaningSlot} {t : SymbolTable}
    (ht : r.table.modifyMeaning (σ m) f = .ok t) {u v : List Text}
    (hf : ∀ d : MeaningSlot, d.fields.keys = F m → d.methods.keys = G m →
      (f d).fields.keys = F m ++ u ∧ (f d).methods.keys = G m ++ v) :
    Lists names σ (addNames F m u) (addNames G m v) { r with table := t } where
  symbol := h.symbol
  meanings := h.meanings
  meaning := by
    intro x hx
    obtain ⟨d, hd, hF, hG⟩ := h.meaning x hx
    refine ⟨_, SymbolTable.meaning_modifyMeaning ht hd, ?_⟩
    by_cases hxm : x = m
    · subst hxm
      rw [if_pos rfl, addNames_self, addNames_self]
      exact hf d hF hG
    · rw [if_neg fun he => hxm (hσ x hx m hm he), addNames_ne F _ hxm, addNames_ne G _ hxm]
      exact ⟨hF, hG⟩

include hσ in
/-- One meaning changes, but not in its members. -/
theorem Lists.keep (h : Lists names σ F G r) (hm : m ∈ names) {f : MeaningSlot → MeaningSlot} {t : SymbolTable}
    (ht : r.table.modifyMeaning (σ m) f = .ok t) (hf : ∀ d, (f d).fields = d.fields ∧ (f d).methods = d.methods) :
    Lists names σ F G { r with table := t } := by
  rw [← addNames_nil F m, ← addNames_nil G m]
  refine h.modify hσ hm ht fun d hF hG => ?_
  rw [(hf d).1, (hf d).2, List.append_nil, List.append_nil]
  exact ⟨hF, hG⟩

/-! ### Steps -/

include hσ in
theorem addParent_lists {f : Forest} (h : Lists names σ F G r) (hm : m ∈ names) (hr : addParent f r m = .ok r') :
    Lists names σ F G r' := by
  rw [addParent] at hr
  split at hr
  · exact Except.ok.inj hr ▸ h
  · obtain ⟨t, ht, hr⟩ := bind_eq_ok.1 hr
    obtain rfl := Except.ok.inj hr
    rw [h.symbol] at ht
    exact h.keep hσ hm (SymbolTable.modifyMeaning_of_setInherits ht) fun _ => ⟨rfl, rfl⟩

include hσ in
theorem addSubmeaning_lists {f : Forest} (h : Lists names σ F G r) (hparent : ∀ p, f.parent? m = some p → p ∈ names)
    (hr : addSubmeaning f r m = .ok r') : Lists names σ F G r' := by
  rw [addSubmeaning] at hr
  split at hr
  · exact Except.ok.inj hr ▸ h
  · rename_i p hp
    obtain ⟨t, ht, hr⟩ := bind_eq_ok.1 hr
    obtain rfl := Except.ok.inj hr
    rw [h.symbol] at ht
    exact h.keep hσ (hparent p hp) ht fun _ => ⟨rfl, rfl⟩

include hσ in
theorem addField_lists (h : Lists names σ F G r) (hm : m ∈ names) {x : FieldSlot} (hnew : x.name ∉ F m)
    (hr : addField m r x = .ok r') : Lists names σ (addNames F m [x.name]) G r' := by
  obtain ⟨t, ht, hr⟩ := bind_eq_ok.1 hr
  obtain rfl := Except.ok.inj hr
  rw [h.symbol] at ht
  have hlists := (h.allocate (.field x)).modify hσ hm ht (u := [x.name]) (v := []) fun d hF hG => by
    rw [OrderedMap.keys_set, hF, if_neg hnew, List.append_nil]
    exact ⟨rfl, hG⟩
  rwa [addNames_nil] at hlists

include hσ in
theorem addMethod_lists (h : Lists names σ F G r) (hm : m ∈ names) {g : Method} (hnew : g.name ∉ G m)
    (hr : addMethod m r g = .ok r') : Lists names σ F (addNames G m [g.name]) r' := by
  obtain ⟨⟨s, t⟩, hcreate, hr⟩ := bind_eq_ok.1 hr
  obtain ⟨t', ht', hr⟩ := bind_eq_ok.1 hr
  obtain rfl := Except.ok.inj hr
  have hallocate := h.allocate (.method { name := g.name, definedIn := r.symbol m, doc := g.decl.doc })
  rw [SymbolTable.allocate_of_createMethod hcreate] at hallocate
  rw [h.symbol] at ht'
  have hlists := hallocate.modify hσ hm ht' (u := []) (v := [g.name]) fun d hF hG => by
    rw [OrderedMap.keys_set, hG, if_neg hnew, List.append_nil]
    exact ⟨hF, rfl⟩
  rwa [addNames_nil] at hlists

theorem addOverride_lists (h : Lists names σ F G r) {o : Override} (hr : addOverride r o = .ok r') :
    Lists names σ F G r' := by
  obtain ⟨_, -, hr⟩ := bind_eq_ok.1 hr
  obtain ⟨t, ht, hr⟩ := bind_eq_ok.1 hr
  obtain rfl := Except.ok.inj hr
  refine ⟨h.symbol, h.meanings, fun m hm => ?_⟩
  obtain ⟨d, hd, hkeys⟩ := h.meaning m hm
  exact ⟨d, SymbolTable.meaning_registerOverride ht hd, hkeys⟩

include hσ in
/-- A meaning without members gets those of its profile. -/
theorem addProfile_lists {p : Profile} {above : List Profile} (hp : p.Consistent above) (hm : p.name ∈ names)
    (hF : F p.name = []) (hG : G p.name = []) (h : Lists names σ F G r) (hr : addProfile r p = .ok r') :
    Lists names σ (addNames F p.name (p.fields.map (·.name))) (addNames G p.name (p.methods.map (·.name))) r' := by
  obtain ⟨r₁, hr₁, hr⟩ := bind_eq_ok.1 hr
  obtain ⟨r₂, hr₂, hr₃⟩ := bind_eq_ok.1 hr
  -- setting a known name would keep its place, so that every name is new is part of both runs
  have h₁ : Lists names σ (addNames F p.name (p.fields.map (·.name))) G r₁ := by
    refine foldlM_keeps (P := fun done r => Lists names σ (addNames F p.name (done.map (·.name))) G r) ?_ ?_ hr₁
    · intro done x todo s s' hsplit hs hs'
      have hnew : x.name ∉ done.map (·.name) := by
        have hnodup := hp.fields_nodup
        rw [hsplit, List.map_append, List.map_cons] at hnodup
        exact notMem_of_nodup hnodup
      rw [List.map_append, ← addNames_addNames]
      exact addField_lists hσ hs hm (by rwa [addNames_self, hF]) hs'
    · simpa using h
  have h₂ : Lists names σ (addNames F p.name (p.fields.map (·.name))) (addNames G p.name (p.methods.map (·.name)))
      r₂ := by
    refine foldlM_keeps (P := fun done r => Lists names σ _ (addNames G p.name (done.map (·.name))) r) ?_ ?_ hr₂
    · intro done x todo s s' hsplit hs hs'
      have hnew : x.name ∉ done.map (·.name) := by
        have hnodup := hp.methods_nodup
        rw [hsplit, List.map_append, List.map_cons] at hnodup
        exact notMem_of_nodup hnodup
      rw [List.map_append, ← addNames_addNames]
      exact addMethod_lists hσ hs hm (by rwa [addNames_self, hG]) hs'
    · simpa using h₁
  exact foldlM_keeps (P := fun _ r => Lists names σ _ _ r) (fun _ _ _ _ _ _ hs hs' => addOverride_lists hs hs') h₂ hr₃

end

/-- The names that the given profiles have for a meaning. -/
def namesIn (select : Profile → List Text) (profiles : List Profile) (m : Text) : List Text :=
  (profiles.filter (·.name == m)).flatMap select

theorem namesIn_concat (select : Profile → List Text) (profiles : List Profile) (p : Profile) :
    namesIn select (profiles ++ [p]) = addNames (namesIn select profiles) p.name (select p) := by
  funext x
  by_cases hx : x = p.name
  · simp [namesIn, addNames, hx]
  · simp [namesIn, addNames, hx, Ne.symm hx]

theorem namesIn_eq_nil (select : Profile → List Text) {profiles : List Profile} {m : Text}
    (h : m ∉ profiles.map (·.name)) : namesIn select profiles m = [] := by
  rw [namesIn, List.filter_eq_nil_iff.2, List.flatMap_nil]
  intro p hp he
  exact h (beq_iff_eq.1 he ▸ List.mem_map_of_mem hp)

end Recording

variable {a : Analysis}

/-- A profile has the only names for its meaning. -/
theorem Complete.namesIn_eq (ha : a.Complete) (select : Profile → List Text) {p : Profile} (hp : p ∈ a.profiles) :
    Recording.namesIn select a.profiles p.name = select p := by
  have hnodup : (a.profiles.map (·.name)).Nodup := ha.perm.nodup_iff.2 ha.sound.nodup
  obtain ⟨us, vs, hsplit⟩ := List.append_of_mem hp
  rw [hsplit, List.map_append, List.map_cons, List.nodup_append, List.nodup_cons] at hnodup
  have hvs : p.name ∉ vs.map (·.name) := hnodup.2.1.1
  have hus : p.name ∉ us.map (·.name) := fun hmem => hnodup.2.2 _ hmem _ (by simp) rfl
  have hcons : Recording.namesIn select (us ++ p :: vs) p.name =
      Recording.namesIn select us p.name ++ (select p ++ Recording.namesIn select vs p.name) := by
    simp [Recording.namesIn]
  rw [hsplit, hcons, Recording.namesIn_eq_nil select hus, Recording.namesIn_eq_nil select hvs]
  simp

namespace Recording

theorem keys_foldl_addMeaning (todo : List Text) (r : Recording) (h : (r.meanings.keys ++ todo).Nodup) :
    (todo.foldl addMeaning r).meanings.keys = r.meanings.keys ++ todo := by
  induction todo generalizing r with
  | nil => simp
  | cons m todo ih =>
    have hkeys : (r.addMeaning m).meanings.keys = r.meanings.keys ++ [m] := by
      rw [addMeaning, OrderedMap.keys_set, if_neg (notMem_of_nodup h)]
    rw [List.foldl_cons, ih _ (by rwa [hkeys, List.append_assoc]), hkeys, List.append_assoc]
    rfl

theorem Started.lists {names : List Text} {n : Nat} {r : Recording} (h : Started names n r)
    (hkeys : r.meanings.keys = names) : Lists names r.symbol (fun _ => []) (fun _ => []) r where
  symbol := rfl
  meanings := hkeys
  meaning := by
    intro m hm
    obtain ⟨new, hsymbol, -, hread⟩ := h.meaning m hm
    exact ⟨{ name := m }, hsymbol ▸ hread, rfl, rfl⟩

end Recording

/-- The symbol of every meaning lists the fields and methods of its profile, in order, and nothing else. -/
theorem Complete.lists (ha : a.Complete) {t : SymbolTable} {r : Recording} (hcount : a.symbolCount ≤ 4294967296)
    (h : a.record t = .ok r) : Recording.Lists a.forest.names r.symbol
      (Recording.namesIn (fun p => p.fields.map (·.name)) a.profiles)
      (Recording.namesIn (fun p => p.methods.map (·.name)) a.profiles) r := by
  obtain ⟨n, hstarted⟩ := ha.exists_started t hcount
  have h₀ := hstarted.lists (Recording.keys_foldl_addMeaning _ _ (by simpa [OrderedMap.keys] using ha.sound.nodup))
  have hσ := fun x hx y hy => hstarted.holds.injective (m := x) (x := y) hx hy
  obtain ⟨r₁, hr₁, hrest⟩ := bind_eq_ok.1 h
  obtain ⟨r₂, hr₂, hr₃⟩ := bind_eq_ok.1 hrest
  have h₁ := foldlM_keeps (P := fun _ r => Recording.Lists a.forest.names _ _ _ r)
    (fun done m todo _ _ hsplit hs => Recording.addParent_lists hσ hs (by rw [hsplit]; simp)) h₀ hr₁
  have h₂ := foldlM_keeps (P := fun _ r => Recording.Lists a.forest.names _ _ _ r)
    (fun _ m _ _ _ _ hs => Recording.addSubmeaning_lists hσ hs (ha.sound.closed m)) h₁ hr₂
  have h₃ := foldlM_keeps (P := fun done r => Recording.Lists a.forest.names _
    (Recording.namesIn (fun p => p.fields.map (·.name)) done)
    (Recording.namesIn (fun p => p.methods.map (·.name)) done) r) ?_ h₂ hr₃
  · exact h₃.symbol ▸ h₃
  · intro done p todo s s' hsplit hs hs'
    have hp : p ∈ a.profiles := by rw [hsplit]; simp
    obtain ⟨asc, us, -, hchain⟩ := ha.exists_chain_of_mem hp
    have hnew : p.name ∉ done.map (·.name) := by
      have hnodup : (a.profiles.map (·.name)).Nodup := ha.perm.nodup_iff.2 ha.sound.nodup
      rw [hsplit, List.map_append, List.map_cons] at hnodup
      exact notMem_of_nodup hnodup
    rw [Recording.namesIn_concat, Recording.namesIn_concat]
    exact Recording.addProfile_lists hσ (hchain.consistent rfl) (ha.name_mem hp) (Recording.namesIn_eq_nil _ hnew)
      (Recording.namesIn_eq_nil _ hnew) hs hs'

end Analysis

end MeaningForest

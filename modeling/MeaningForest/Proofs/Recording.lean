import MeaningForest.Analysis.Record
import MeaningForest.Proofs.Generation
import MeaningForest.Proofs.Symbols
import Mathlib.Data.List.Flatten

/-!
# The symbols of an analysis

Recording an analysis never fails if its symbols fit into an arena, and the recorded table says what the analysis says.
`Holds` is what holds between the steps: every meaning has a symbol that can be read, with the parent, submeanings,
fields, methods and overrides that were recorded so far.
-/

namespace MeaningForest.Analysis

variable {lang : Language}

/-- What has been recorded: parents and submeanings, fields with their meanings, methods and overrides. -/
structure Contents where
  parent : Text → Option Text
  submeanings : Text → List Text
  fields : List (Text × FieldSlot)
  methods : List Method
  overrides : List Override

/-- The code of the last of the overrides of a method that has a given path. -/
def codeAlong (overrides : List Override) (g : Method) (path : List Text) : Option Text :=
  ((overrides.filter fun o => o.base.owner == g.owner && o.base.name == g.name && o.path == path).getLast?).map
    (·.call.text)

theorem codeAlong_append (overrides : List Override) (o : Override) (g : Method) (path : List Text) :
    codeAlong (overrides ++ [o]) g path =
      if o.base.owner = g.owner ∧ o.base.name = g.name ∧ o.path = path then some o.call.text
      else codeAlong overrides g path := by
  rw [codeAlong, codeAlong, List.filter_append]
  by_cases ho : o.base.owner = g.owner ∧ o.base.name = g.name ∧ o.path = path
  · simp [ho]
  · have hnone : [o].filter (fun o => o.base.owner == g.owner && o.base.name == g.name && o.path == path) = [] := by
      simpa [and_assoc] using ho
    rw [if_neg ho, hnone, List.append_nil]

namespace Recording

section

variable (names : List Text) (σ : Text → Symbol)

/-- A table has what was recorded of a method. -/
structure HoldsMethod (overrides : List Override) (t : SymbolTable) (g : Method) (s : Symbol) (h : MethodSlot) :
    Prop where
  read : t.method s = .ok h
  name : h.name = g.name
  definedIn : h.definedIn = σ g.owner
  code : ∀ q ⊆ names, h.mapping.codeAt (q.map σ) = codeAlong overrides g q

/-- A table has what was recorded of a meaning. -/
structure HoldsMeaning (c : Contents) (t : SymbolTable) (m : Text) (d : MeaningSlot) : Prop where
  name : d.name = m
  inherits : d.inherits = (c.parent m).bind σ
  submeanings : d.submeanings = (c.submeanings m).map σ
  field : ∀ x ∈ c.fields, x.1 = m → ∃ s, d.fields.get? x.2.name = some s ∧ t.field s = .ok x.2
  method : ∀ g ∈ c.methods, g.owner = m →
    ∃ s h, d.methods.get? g.name = some s ∧ HoldsMethod names σ c.overrides t g s h

/-- A recording has what was recorded, and room for `n` more symbols. -/
structure Holds (c : Contents) (n : Nat) (r : Recording) : Prop where
  symbol : r.symbol = σ
  handle : ∀ m ∈ names, ∃ h, σ m = some h ∧ h.arena = r.arena
  room : r.table.Room r.arena names.length n
  meaning : ∀ m ∈ names, ∃ d, r.table.meaning (σ m) = .ok d ∧ HoldsMeaning names σ c r.table m d

end

/-- Fields and methods of one table are those of the other. -/
structure Reads (t t' : SymbolTable) : Prop where
  field : ∀ s x, t.field s = .ok x → t'.field s = .ok x
  method : ∀ s x, t.method s = .ok x → t'.method s = .ok x

variable {names : List Text} {σ : Text → Symbol} {c : Contents} {n : Nat} {r : Recording} {m : Text}

theorem HoldsMeaning.mono {t t' : SymbolTable} {d : MeaningSlot} (h : HoldsMeaning names σ c t m d)
    (ht : Reads t t') : HoldsMeaning names σ c t' m d where
  name := h.name
  inherits := h.inherits
  submeanings := h.submeanings
  field := by
    intro x hx hm
    obtain ⟨s, hs, hread⟩ := h.field x hx hm
    exact ⟨s, hs, ht.field s _ hread⟩
  method := by
    intro g hg hm
    obtain ⟨s, e, hs, he⟩ := h.method g hg hm
    exact ⟨s, e, hs, { he with read := ht.method s e he.read }⟩

theorem Holds.injective (h : Holds names σ c n r) {x : Text} (hm : m ∈ names) (hx : x ∈ names) (he : σ m = σ x) :
    m = x := by
  obtain ⟨d, hd, hdm⟩ := h.meaning m hm
  obtain ⟨e, hde, hex⟩ := h.meaning x hx
  rw [he, hde] at hd
  rw [← hdm.name, ← Except.ok.inj hd]
  exact hex.name

theorem Holds.map_injective (h : Holds names σ c n r) {p q : List Text} (hp : p ⊆ names) (hq : q ⊆ names)
    (he : p.map σ = q.map σ) : p = q := by
  induction p generalizing q with
  | nil => simpa [eq_comm] using he
  | cons a p ih =>
    cases q with
    | nil => cases he
    | cons b q =>
      obtain ⟨hab, hpq⟩ := List.cons.inj he
      rw [List.cons_subset] at hp hq
      rw [h.injective hp.1 hq.1 hab, ih hp.2 hq.2 hpq]

/-- One meaning changes. -/
theorem Holds.modify (h : Holds names σ c n r) (hm : m ∈ names) (c' : Contents) (f : MeaningSlot → MeaningSlot)
    (hother : ∀ x ∈ names, x ≠ m → ∀ t d, HoldsMeaning names σ c t x d → HoldsMeaning names σ c' t x d)
    (hself : ∀ t d, Reads r.table t → HoldsMeaning names σ c t m d → HoldsMeaning names σ c' t m (f d)) :
    ∃ t, r.table.modifyMeaning (σ m) f = .ok t ∧ Holds names σ c' n { r with table := t } := by
  obtain ⟨d, hd, hdm⟩ := h.meaning m hm
  obtain ⟨t, ht, hroom, hslot⟩ := SymbolTable.modifyMeaning_spec hd f
  have hreads : Reads r.table t := by
    have hkept : ∀ s x, r.table.slot s = .ok x → x.kind ≠ .meaning → t.slot s = .ok x := by
      intro s x hs hx
      have hne : s ≠ σ m := by
        rintro rfl
        rw [SymbolTable.meaning_eq_ok.1 hd] at hs
        exact hx (Except.ok.inj hs ▸ rfl)
      rw [hslot, if_neg hne, hs]
    constructor
    · intro s x hs
      exact SymbolTable.field_eq_ok.2 (hkept s _ (SymbolTable.field_eq_ok.1 hs) (by simp [Slot.kind]))
    · intro s x hs
      exact SymbolTable.method_eq_ok.2 (hkept s _ (SymbolTable.method_eq_ok.1 hs) (by simp [Slot.kind]))
  refine ⟨t, ht, h.symbol, h.handle, hroom _ _ _ h.room, ?_⟩
  intro x hx
  by_cases hxm : x = m
  · subst hxm
    refine ⟨f d, SymbolTable.meaning_eq_ok.2 (by rw [hslot, if_pos rfl]), hself t d hreads (hdm.mono hreads)⟩
  · obtain ⟨e, he, hex⟩ := h.meaning x hx
    have hne : σ x ≠ σ m := fun hσ => hxm (h.injective hx hm hσ)
    refine ⟨e, SymbolTable.meaning_eq_ok.2 ?_, hother x hx hxm t e (hex.mono hreads)⟩
    rw [hslot, if_neg hne]
    exact SymbolTable.meaning_eq_ok.1 he

/-- A symbol is added. -/
theorem Holds.allocate (h : Holds names σ c (n + 1) r) (x : Slot) : ∃ s t, r.table.allocate r.arena x = (s, t) ∧
    t.slot s = .ok x ∧ Holds names σ c n { r with table := t } := by
  obtain ⟨new, t, ht, -, hroom, hnew, hold⟩ := SymbolTable.allocate_spec h.room x
  have hreads : Reads r.table t := by
    constructor
    · intro s x hs
      exact SymbolTable.field_eq_ok.2 (hold s _ (SymbolTable.field_eq_ok.1 hs)).2
    · intro s x hs
      exact SymbolTable.method_eq_ok.2 (hold s _ (SymbolTable.method_eq_ok.1 hs)).2
  refine ⟨some new, t, ht, hnew, h.symbol, h.handle, hroom.mono, ?_⟩
  intro m hm
  obtain ⟨d, hd, hdm⟩ := h.meaning m hm
  exact ⟨d, SymbolTable.meaning_eq_ok.2 (hold _ _ (SymbolTable.meaning_eq_ok.1 hd)).2, hdm.mono hreads⟩

/-! ### Steps -/

theorem addParent_holds (h : Holds names σ c n r) (f : Forest) (hm : m ∈ names) (hnew : c.parent m = none)
    (hparent : ∀ p, f.parent? m = some p → p ∈ names) : ∃ r', addParent f r m = .ok r' ∧
      Holds names σ { c with parent := fun x => if x = m then f.parent? m else c.parent x } n r' := by
  rw [addParent]
  cases hp : f.parent? m with
  | none =>
    refine ⟨r, rfl, ?_⟩
    have hsame : (fun x => if x = m then none else c.parent x) = c.parent := by
      funext x
      split
      · rename_i hx
        rw [hx, hnew]
      · rfl
    rw [hsame]
    exact h
  | some p =>
    obtain ⟨d, hd, -⟩ := h.meaning p (hparent p hp)
    obtain ⟨t, ht, hholds⟩ := h.modify hm { c with parent := fun x => if x = m then some p else c.parent x }
      (fun d => { d with inherits := σ p })
      (fun x _ hxm t d hd => { hd with inherits := by simp [hd.inherits, hxm] })
      (fun t d _ hd => { hd with inherits := by simp })
    refine ⟨{ r with table := t }, ?_, hholds⟩
    have hset : r.table.setInherits (r.symbol m) (r.symbol p) = .ok t := by
      rw [h.symbol, SymbolTable.setInherits_eq hd, ht]
    exact bind_eq_ok.2 ⟨t, hset, rfl⟩

theorem addSubmeaning_holds (h : Holds names σ c n r) (f : Forest)
    (hparent : ∀ p, f.parent? m = some p → p ∈ names) : ∃ r', addSubmeaning f r m = .ok r' ∧
      Holds names σ { c with
        submeanings := fun x => if f.parent? m = some x then c.submeanings x ++ [m] else c.submeanings x } n r' := by
  rw [addSubmeaning]
  cases hp : f.parent? m with
  | none => exact ⟨r, rfl, by simpa using h⟩
  | some p =>
    obtain ⟨t, ht, hholds⟩ := h.modify (hparent p hp)
      { c with submeanings := fun x => if some p = some x then c.submeanings x ++ [m] else c.submeanings x }
      (fun d => { d with submeanings := d.submeanings ++ [σ m] })
      (fun x _ hxp t d hd => { hd with submeanings := by simp [hd.submeanings, Ne.symm hxp] })
      (fun t d _ hd => { hd with submeanings := by simp [hd.submeanings] })
    refine ⟨{ r with table := t }, bind_eq_ok.2 ⟨t, ?_, rfl⟩, hholds⟩
    rw [h.symbol]
    exact ht

theorem addField_holds (h : Holds names σ c (n + 1) r) (hm : m ∈ names) (x : FieldSlot)
    (hnew : ∀ y ∈ c.fields, y.1 = m → y.2.name ≠ x.name) : ∃ r', addField m r x = .ok r' ∧
      Holds names σ { c with fields := c.fields ++ [(m, x)] } n r' := by
  obtain ⟨s, t, ht, hs, hholds⟩ := h.allocate (.field x)
  obtain ⟨t', ht', hholds'⟩ := hholds.modify hm { c with fields := c.fields ++ [(m, x)] }
    (fun d => { d with fields := d.fields.set x.name s })
    (by
      intro y _ hym t d hd
      refine { hd with field := ?_ }
      intro z hz hzy
      rcases List.mem_append.1 hz with hz | hz
      · exact hd.field z hz hzy
      · rw [List.mem_singleton.1 hz] at hzy
        exact absurd hzy.symm hym)
    (by
      intro t' d hreads hd
      refine { hd with field := ?_ }
      intro z hz hzm
      rcases List.mem_append.1 hz with hz | hz
      · obtain ⟨s', hs', hread⟩ := hd.field z hz hzm
        refine ⟨s', ?_, hread⟩
        rw [OrderedMap.get?_set, if_neg (hnew z hz hzm), hs']
      · rw [List.mem_singleton.1 hz]
        refine ⟨s, ?_, hreads.field s x (SymbolTable.field_eq_ok.2 hs)⟩
        rw [OrderedMap.get?_set, if_pos rfl])
  refine ⟨_, ?_, hholds'⟩
  have hset : t.setField (r.symbol m) x.name s = .ok t' := by
    rw [h.symbol]
    exact ht'
  rw [addField, SymbolTable.createField, ht]
  exact bind_eq_ok.2 ⟨t', hset, rfl⟩

theorem addMethod_holds (h : Holds names σ c (n + 1) r) (hm : m ∈ names) (g : Method) (howner : g.owner = m)
    (hnew : ∀ g' ∈ c.methods, g'.owner = m → g'.name ≠ g.name)
    (hbare : ∀ o ∈ c.overrides, o.base.owner = g.owner → o.base.name ≠ g.name) :
    ∃ r', addMethod m r g = .ok r' ∧ Holds names σ { c with methods := c.methods ++ [g] } n r' := by
  obtain ⟨s, t, ht, hs, hholds⟩ := h.allocate (.method { name := g.name, definedIn := σ m, doc := g.decl.doc })
  obtain ⟨t', ht', hholds'⟩ := hholds.modify hm { c with methods := c.methods ++ [g] }
    (fun d => { d with methods := d.methods.set g.name s })
    (by
      intro y _ hym t d hd
      refine { hd with method := ?_ }
      intro g' hg' hy
      rcases List.mem_append.1 hg' with hg' | hg'
      · exact hd.method g' hg' hy
      · rw [List.mem_singleton.1 hg', howner] at hy
        exact absurd hy.symm hym)
    (by
      intro t' d hreads hd
      refine { hd with method := ?_ }
      intro g' hg' hgm
      rcases List.mem_append.1 hg' with hg' | hg'
      · obtain ⟨s', e, hs', he⟩ := hd.method g' hg' hgm
        refine ⟨s', e, ?_, he⟩
        rw [OrderedMap.get?_set, if_neg (hnew g' hg' hgm), hs']
      · obtain rfl := List.mem_singleton.1 hg'
        refine ⟨s, _, ?_, hreads.method s _ (SymbolTable.method_eq_ok.2 hs), rfl, by rw [howner], ?_⟩
        · rw [OrderedMap.get?_set, if_pos rfl]
        · intro q _
          rw [OverrideTree.codeAt_nil, codeAlong, List.filter_eq_nil_iff.2]
          · rfl
          · intro o ho
            have := hbare o ho
            simp_all)
  refine ⟨_, ?_, hholds'⟩
  obtain ⟨d, hd, -⟩ := h.meaning m hm
  have hcreate : r.table.createMethod r.arena g.name (r.symbol m) g.decl.doc = .ok (s, t) := by
    rw [h.symbol, SymbolTable.createMethod_eq hd, ht]
  have hset : t.setMethod (r.symbol m) g.name s = .ok t' := by
    rw [h.symbol]
    exact ht'
  exact bind_eq_ok.2 ⟨(s, t), hcreate, bind_eq_ok.2 ⟨t', hset, rfl⟩⟩

theorem addOverride_holds (h : Holds names σ c n r) (o : Override) (hbase : o.base ∈ c.methods)
    (howner : o.base.owner ∈ names) (hne : o.path ≠ []) (hpath : o.path ⊆ names) :
    ∃ r', addOverride r o = .ok r' ∧ Holds names σ { c with overrides := c.overrides ++ [o] } n r' := by
  obtain ⟨d, hd, hdm⟩ := h.meaning o.base.owner howner
  obtain ⟨s, e, hs, he⟩ := hdm.method o.base hbase rfl
  obtain ⟨k, path, hk⟩ := List.exists_cons_of_ne_nil hne
  obtain ⟨t, ht, hroom, hslot⟩ := SymbolTable.registerOverride_spec he.read o.call.text (σ k) (path.map σ)
  have hkept : ∀ s' x, r.table.slot s' = .ok x → x.kind ≠ .method → t.slot s' = .ok x := by
    intro s' x hx hkind
    have hne : s' ≠ s := by
      rintro rfl
      rw [SymbolTable.method_eq_ok.1 he.read] at hx
      exact hkind (Except.ok.inj hx ▸ rfl)
    rw [hslot, if_neg hne, hx]
  refine ⟨{ r with table := t }, ?_, h.symbol, h.handle, hroom _ _ _ h.room, ?_⟩
  · have hget : (d.methods.get? o.base.name).getD none = s := by rw [hs]; rfl
    rw [addOverride, h.symbol]
    refine bind_eq_ok.2 ⟨d, hd, bind_eq_ok.2 ⟨t, ?_, rfl⟩⟩
    rw [hget, hk, List.map_cons]
    exact ht
  · intro m hm
    obtain ⟨d', hd', hdm'⟩ := h.meaning m hm
    have hread := SymbolTable.meaning_eq_ok.2 (hkept _ _ (SymbolTable.meaning_eq_ok.1 hd') (by simp [Slot.kind]))
    refine ⟨d', hread, { hdm' with field := ?_, method := ?_ }⟩
    · intro x hx hxm
      obtain ⟨s', hs', hfield⟩ := hdm'.field x hx hxm
      exact ⟨s', hs', SymbolTable.field_eq_ok.2 (hkept _ _ (SymbolTable.field_eq_ok.1 hfield) (by simp [Slot.kind]))⟩
    · intro g hg hgm
      obtain ⟨s', e', hs', he'⟩ := hdm'.method g hg hgm
      by_cases hsame : s' = s
      · rw [hsame] at he' hs'
        obtain rfl : e = e' := Except.ok.inj (he.read.symm.trans he'.read)
        have hname : o.base.name = g.name := he.name.symm.trans he'.name
        have hgowner : o.base.owner = g.owner :=
          h.injective howner (hgm ▸ hm) (he.definedIn.symm.trans he'.definedIn)
        have hread' := SymbolTable.method_eq_ok.2 ((hslot s).trans (if_pos rfl))
        refine ⟨s, _, hs', hread', he'.name, he'.definedIn, ?_⟩
        intro q hq
        rw [OverrideTree.codeAt_register, codeAlong_append, ← List.map_cons, ← hk, he'.code q hq]
        refine if_congr ?_ rfl rfl
        constructor
        · intro hmap
          exact ⟨hgowner, hname, (h.map_injective hq hpath hmap).symm⟩
        · rintro ⟨-, -, rfl⟩
          rfl
      · refine ⟨s', e', hs', SymbolTable.method_eq_ok.2 ?_, he'.name, he'.definedIn, ?_⟩
        · rw [hslot, if_neg hsame]
          exact SymbolTable.method_eq_ok.1 he'.read
        · intro q hq
          rw [codeAlong_append, if_neg, he'.code q hq]
          -- two methods of one name in one meaning have one symbol
          rintro ⟨hgowner, hname, -⟩
          rw [hgm] at hgowner
          rw [hgowner] at hd
          obtain rfl : d = d' := Except.ok.inj (hd.symm.trans hd')
          rw [hname, hs'] at hs
          exact hsame (Option.some.inj hs)

/-! ### Meanings -/

/-- The given meanings have symbols, and nothing else is recorded. -/
structure Started (done : List Text) (n : Nat) (r : Recording) : Prop where
  room : r.table.Room r.arena done.length n
  meaning : ∀ m ∈ done, ∃ h, r.symbol m = some h ∧ h.arena = r.arena ∧ r.table.meaning (some h) = .ok { name := m }

theorem addMeaning_started {done : List Text} (h : Started done (n + 1) r) (hm : m ∉ done) :
    Started (done ++ [m]) n (r.addMeaning m) := by
  obtain ⟨new, t, ht, hnew, hroom, hread, hold⟩ := SymbolTable.allocate_spec h.room (.meaning { name := m })
  have hadd : r.addMeaning m = { r with table := t, meanings := r.meanings.set m (some new) } := by
    rw [addMeaning, SymbolTable.createMeaning, ht]
  rw [hadd]
  refine ⟨by simpa using hroom, ?_⟩
  intro x hx
  rcases List.mem_append.1 hx with hdone | hlast
  · have hne : x ≠ m := by
      rintro rfl
      exact hm hdone
    obtain ⟨old, hsymbol, harena, hmeaning⟩ := h.meaning x hdone
    refine ⟨old, ?_, harena, SymbolTable.meaning_eq_ok.2 (hold _ _ (SymbolTable.meaning_eq_ok.1 hmeaning)).2⟩
    rw [symbol, OrderedMap.get?_set, if_neg hne]
    exact hsymbol
  · rw [List.mem_singleton.1 hlast]
    refine ⟨new, ?_, hnew, SymbolTable.meaning_eq_ok.2 hread⟩
    rw [symbol, OrderedMap.get?_set, if_pos rfl]
    rfl

theorem foldl_addMeaning_started (todo done : List Text) {r : Recording} (h : Started done (n + todo.length) r)
    (hnodup : (done ++ todo).Nodup) : Started (done ++ todo) n (todo.foldl addMeaning r) := by
  induction todo generalizing done r with
  | nil => simpa using h
  | cons m todo ih =>
    have hm : m ∉ done := notMem_of_nodup hnodup
    rw [List.append_cons] at hnodup ⊢
    exact ih (done ++ [m]) (addMeaning_started h hm) hnodup

/-- Nothing but names. -/
def blank : Contents := ⟨fun _ => none, fun _ => [], [], [], []⟩

theorem Started.holds (h : Started names n r) : Holds names r.symbol blank n r where
  symbol := rfl
  handle := by
    intro m hm
    obtain ⟨new, hsymbol, harena, -⟩ := h.meaning m hm
    exact ⟨new, hsymbol, harena⟩
  room := h.room
  meaning := by
    intro m hm
    obtain ⟨new, hsymbol, -, hread⟩ := h.meaning m hm
    exact ⟨{ name := m }, hsymbol ▸ hread, rfl, rfl, rfl, by simp [blank], by simp [blank]⟩

/-! ### Parents and submeanings -/

variable {f : Forest}

theorem exists_addParents (hf : f.Sound) (h : Holds f.names σ blank n r) :
    ∃ r', f.names.foldlM (addParent f) r = .ok r' ∧ Holds f.names σ { blank with parent := f.parent? } n r' := by
  have hstep : ∀ done m todo r, f.names = done ++ m :: todo →
      Holds f.names σ { blank with parent := fun x => if x ∈ done then f.parent? x else none } n r →
      ∃ r', addParent f r m = .ok r' ∧
        Holds f.names σ { blank with parent := fun x => if x ∈ done ++ [m] then f.parent? x else none } n r' := by
    intro done m todo r hsplit hr
    have hnew : m ∉ done := notMem_of_nodup (hsplit ▸ hf.nodup)
    obtain ⟨r', hr', hholds⟩ := addParent_holds hr f (by rw [hsplit]; simp) (if_neg hnew) (hf.closed m)
    refine ⟨r', hr', ?_⟩
    have hparent : (fun x => if x = m then f.parent? m else if x ∈ done then f.parent? x else none) =
        fun x => if x ∈ done ++ [m] then f.parent? x else none := by
      funext x
      by_cases hx : x = m
      · simp [hx]
      · simp [hx]
    rw [← hparent]
    exact hholds
  obtain ⟨r', hr', hholds⟩ := exists_foldlM_ok hstep (s := r) (by simpa [blank] using h)
  refine ⟨r', hr', ?_⟩
  have hparent : (fun x => if x ∈ f.names then f.parent? x else none) = f.parent? := by
    funext x
    split
    · rfl
    · rename_i hx
      cases hp : f.parent? x with
      | none => rfl
      | some p => exact absurd (Forest.mem_names_of_parent? hp) hx
  rw [← hparent]
  exact hholds

theorem exists_addSubmeanings (hf : f.Sound) (h : Holds f.names σ { blank with parent := f.parent? } n r) :
    ∃ r', f.names.foldlM (addSubmeaning f) r = .ok r' ∧
      Holds f.names σ { blank with parent := f.parent?, submeanings := f.submeanings } n r' := by
  have hstep : ∀ done m todo r, f.names = done ++ m :: todo →
      Holds f.names σ { blank with
        parent := f.parent?, submeanings := fun x => done.filter fun y => f.parent? y == some x } n r →
      ∃ r', addSubmeaning f r m = .ok r' ∧ Holds f.names σ { blank with
        parent := f.parent?, submeanings := fun x => (done ++ [m]).filter fun y => f.parent? y == some x } n r' := by
    intro done m todo r hsplit hr
    obtain ⟨r', hr', hholds⟩ := addSubmeaning_holds hr f (hf.closed m)
    refine ⟨r', hr', ?_⟩
    have hsubs : (fun x => if f.parent? m = some x then (done.filter fun y => f.parent? y == some x) ++ [m]
        else done.filter fun y => f.parent? y == some x) =
        fun x => (done ++ [m]).filter fun y => f.parent? y == some x := by
      funext x
      by_cases hx : f.parent? m = some x
      · simp [hx]
      · simp [hx]
    rw [← hsubs]
    exact hholds
  obtain ⟨r', hr', hholds⟩ := exists_foldlM_ok hstep (s := r) (by simpa [blank] using h)
  refine ⟨r', hr', ?_⟩
  have hsubs : (fun x => f.names.filter fun y => f.parent? y == some x) = f.submeanings :=
    funext fun x => hf.filter_names_parent x
  rw [← hsubs]
  exact hholds

/-! ### Members -/

theorem exists_addFields (xs : List FieldSlot) (hm : m ∈ names) (h : Holds names σ c (n + xs.length) r)
    (hnodup : (xs.map (·.name)).Nodup) (hnew : ∀ y ∈ c.fields, y.1 = m → y.2.name ∉ xs.map (·.name)) :
    ∃ r', xs.foldlM (addField m) r = .ok r' ∧ Holds names σ { c with fields := c.fields ++ xs.map (m, ·) } n r' := by
  induction xs generalizing c r with
  | nil => exact ⟨r, rfl, by simpa using h⟩
  | cons x xs ih =>
    rw [List.map_cons, List.nodup_cons] at hnodup
    obtain ⟨r₁, hr₁, h₁⟩ := addField_holds (n := n + xs.length) h hm x fun y hy hym hxy => hnew y hy hym (by simp [hxy])
    obtain ⟨r₂, hr₂, h₂⟩ := ih h₁ hnodup.2 (by
      intro y hy hym
      rcases List.mem_append.1 hy with hy | hy
      · exact fun hmem => hnew y hy hym (by simp [hmem])
      · rw [List.mem_singleton.1 hy]
        exact hnodup.1)
    refine ⟨r₂, ?_, by simpa using h₂⟩
    rw [List.foldlM_cons, hr₁]
    exact hr₂

theorem exists_addMethods (gs : List Method) (hm : m ∈ names) (h : Holds names σ c (n + gs.length) r)
    (hnodup : (gs.map (·.name)).Nodup) (howner : ∀ g ∈ gs, g.owner = m) (hnew : ∀ g ∈ c.methods, g.owner = m →
      g.name ∉ gs.map (·.name)) (hbare : ∀ o ∈ c.overrides, o.base.owner ≠ m) :
    ∃ r', gs.foldlM (addMethod m) r = .ok r' ∧ Holds names σ { c with methods := c.methods ++ gs } n r' := by
  induction gs generalizing c r with
  | nil => exact ⟨r, rfl, by simpa using h⟩
  | cons g gs ih =>
    rw [List.map_cons, List.nodup_cons] at hnodup
    have hg := howner g (by simp)
    obtain ⟨r₁, hr₁, h₁⟩ := addMethod_holds (n := n + gs.length) h hm g hg
      (fun g' hg' hgm hname => hnew g' hg' hgm (by simp [hname])) (fun o ho hob => absurd (hob.trans hg) (hbare o ho))
    obtain ⟨r₂, hr₂, h₂⟩ := ih h₁ hnodup.2 (fun g' hg' => howner g' (by simp [hg'])) (by
      intro g' hg' hgm
      rcases List.mem_append.1 hg' with hg' | hg'
      · exact fun hmem => hnew g' hg' hgm (by simp [hmem])
      · rw [List.mem_singleton.1 hg']
        exact hnodup.1) hbare
    refine ⟨r₂, ?_, by simpa using h₂⟩
    rw [List.foldlM_cons, hr₁]
    exact hr₂

theorem exists_addOverrides (os : List Override) (h : Holds names σ c n r)
    (hos : ∀ o ∈ os, o.base ∈ c.methods ∧ o.base.owner ∈ names ∧ o.path ≠ [] ∧ o.path ⊆ names) :
    ∃ r', os.foldlM addOverride r = .ok r' ∧ Holds names σ { c with overrides := c.overrides ++ os } n r' := by
  induction os generalizing c r with
  | nil => exact ⟨r, rfl, by simpa using h⟩
  | cons o os ih =>
    obtain ⟨hbase, howner, hne, hpath⟩ := hos o (by simp)
    obtain ⟨r₁, hr₁, h₁⟩ := addOverride_holds h o hbase howner hne hpath
    obtain ⟨r₂, hr₂, h₂⟩ := ih h₁ fun o' ho' => hos o' (by simp [ho'])
    refine ⟨r₂, ?_, by simpa using h₂⟩
    rw [List.foldlM_cons, hr₁]
    exact hr₂

/-- What is recorded when the given profiles are. -/
def contentsOf (f : Forest) (profiles : List Profile) : Contents where
  parent := f.parent?
  submeanings := f.submeanings
  fields := profiles.flatMap fun p => p.fields.map (p.name, ·)
  methods := profiles.flatMap (·.methods)
  overrides := profiles.flatMap (·.overrides)

/-- The number of symbols of the members in profiles. -/
def memberCount (profiles : List Profile) : Nat :=
  (profiles.flatMap (·.fields)).length + (profiles.flatMap (·.methods)).length

theorem addProfile_holds {p : Profile} (hm : p.name ∈ names)
    (h : Holds names σ c (n + (p.fields.length + p.methods.length)) r) (hfields : (p.fields.map (·.name)).Nodup)
    (hmethods : (p.methods.map (·.name)).Nodup) (howner : ∀ g ∈ p.methods, g.owner = p.name)
    (hnew : (∀ y ∈ c.fields, y.1 ≠ p.name) ∧ (∀ g ∈ c.methods, g.owner ≠ p.name) ∧
      ∀ o ∈ c.overrides, o.base.owner ≠ p.name)
    (hoverrides : ∀ o ∈ p.overrides, o.base ∈ c.methods ∧ o.base.owner ∈ names ∧ o.path ≠ [] ∧ o.path ⊆ names) :
    ∃ r', addProfile r p = .ok r' ∧ Holds names σ
      { c with
        fields := c.fields ++ p.fields.map (p.name, ·)
        methods := c.methods ++ p.methods
        overrides := c.overrides ++ p.overrides } n r' := by
  rw [Nat.add_comm p.fields.length, ← Nat.add_assoc] at h
  obtain ⟨r₁, hr₁, h₁⟩ := exists_addFields p.fields hm h hfields fun y hy hym => absurd hym (hnew.1 y hy)
  obtain ⟨r₂, hr₂, h₂⟩ := exists_addMethods p.methods hm h₁ hmethods howner
    (fun g hg hgm => absurd hgm (hnew.2.1 g hg)) hnew.2.2
  obtain ⟨r₃, hr₃, h₃⟩ := exists_addOverrides p.overrides h₂ fun o ho => by
    obtain ⟨hbase, hrest⟩ := hoverrides o ho
    exact ⟨List.mem_append_left _ hbase, hrest⟩
  exact ⟨r₃, bind_eq_ok.2 ⟨r₁, hr₁, bind_eq_ok.2 ⟨r₂, hr₂, hr₃⟩⟩, h₃⟩

end Recording

variable {a : Analysis}

/-- The method that an override overrides belongs to a meaning whose profile stands before. -/
theorem Complete.exists_base_before (ha : a.Complete) {done todo : List Profile} {p : Profile}
    (hsplit : a.profiles = done ++ p :: todo) {o : Override} (ho : o ∈ p.overrides) :
    ∃ q ∈ done, o.base ∈ q.methods ∧ o.base.owner = q.name := by
  obtain ⟨asc, us, hasc, hchain⟩ := ha.exists_chain_of_mem (p := p) (by rw [hsplit]; simp)
  obtain ⟨q, hq, hbase, -⟩ := hchain.exists_base rfl ho
  have hqname : q.name ∈ asc.dropLast := by
    rw [← hchain.names_eq, List.map_append, List.map_singleton, List.dropLast_concat]
    exact List.mem_map_of_mem hq
  obtain ⟨q', hq', hname⟩ := List.mem_map.1 (ha.descending done p todo asc hsplit hasc _ hqname)
  have hq'mem : q' ∈ a.profiles := by
    rw [hsplit]
    exact List.mem_append_left _ hq'
  obtain rfl := ha.profile_unique hq'mem (hchain.mem_profiles (List.mem_append_left _ hq)) hname
  exact ⟨q', hq', hbase, hchain.owner_eq (List.mem_append_left _ hq) hbase⟩

theorem Complete.override_path (ha : a.Complete) {p : Profile} (hp : p ∈ a.profiles) {o : Override}
    (ho : o ∈ p.overrides) : o.path ≠ [] ∧ o.path ⊆ a.forest.names := by
  obtain ⟨q, -, -, -, -, hdown, hlast⟩ := ha.override_spec hp ho
  refine ⟨?_, ?_⟩
  · intro hnil
    simp [hnil] at hlast
  · intro x hx
    obtain ⟨us, vs, hsplit⟩ := List.append_of_mem hx
    rw [hsplit, ← List.cons_append, List.isChain_append] at hdown
    obtain ⟨y, hy⟩ := List.getLast?_isSome.2 (List.cons_ne_nil q.name us) |> Option.isSome_iff_exists.1
    exact Forest.mem_names_of_parent? (hdown.2.2 y hy x rfl)

theorem Complete.method_owner (ha : a.Complete) {p : Profile} (hp : p ∈ a.profiles) {g : Method} (hg : g ∈ p.methods) :
    g.owner = p.name := by
  obtain ⟨asc, us, -, hchain⟩ := ha.exists_chain_of_mem hp
  exact hchain.owner_eq (by simp) hg

namespace Recording

/-- What was recorded belongs to the meanings whose profiles are done. -/
theorem owners_done (ha : a.Complete) {done todo : List Profile} (hsplit : a.profiles = done ++ todo) :
    (∀ y ∈ (contentsOf a.forest done).fields, y.1 ∈ done.map (·.name)) ∧
      (∀ g ∈ (contentsOf a.forest done).methods, g.owner ∈ done.map (·.name)) ∧
      ∀ o ∈ (contentsOf a.forest done).overrides, o.base.owner ∈ done.map (·.name) := by
  refine ⟨?_, ?_, ?_⟩
  · intro y hy
    obtain ⟨q, hq, hy⟩ := List.mem_flatMap.1 hy
    obtain ⟨x, -, rfl⟩ := List.mem_map.1 hy
    exact List.mem_map_of_mem hq
  · intro g hg
    obtain ⟨q, hq, hg⟩ := List.mem_flatMap.1 hg
    rw [ha.method_owner (by rw [hsplit]; exact List.mem_append_left _ hq) hg]
    exact List.mem_map_of_mem hq
  · intro o ho
    obtain ⟨q, hq, hoq⟩ := List.mem_flatMap.1 ho
    obtain ⟨us, vs, rfl⟩ := List.append_of_mem hq
    obtain ⟨q', hq', -, howner⟩ := ha.exists_base_before (by simpa using hsplit) hoq
    rw [howner]
    exact List.mem_map_of_mem (List.mem_append_left _ hq')

variable {σ : Text → Symbol} {n : Nat} {r : Recording}

theorem exists_addProfiles (ha : a.Complete) (todo done : List Profile) (hsplit : a.profiles = done ++ todo)
    (h : Holds a.forest.names σ (contentsOf a.forest done) (n + memberCount todo) r) :
    ∃ r', todo.foldlM addProfile r = .ok r' ∧ Holds a.forest.names σ (contentsOf a.forest a.profiles) n r' := by
  induction todo generalizing done r with
  | nil =>
    rw [List.append_nil] at hsplit
    exact ⟨r, rfl, hsplit ▸ h⟩
  | cons p todo ih =>
    have hp : p ∈ a.profiles := by rw [hsplit]; simp
    obtain ⟨asc, us, -, hchain⟩ := ha.exists_chain_of_mem hp
    have hcons : p.Consistent us := hchain.consistent rfl
    have hnodup : (a.profiles.map (·.name)).Nodup := ha.perm.nodup_iff.2 ha.sound.nodup
    have hnew : p.name ∉ done.map (·.name) := by
      rw [hsplit, List.map_append] at hnodup
      exact notMem_of_nodup hnodup
    obtain ⟨hfields, hmethods, hoverrides⟩ := owners_done ha hsplit
    have hbases : ∀ o ∈ p.overrides, o.base ∈ (contentsOf a.forest done).methods ∧ o.base.owner ∈ a.forest.names ∧
        o.path ≠ [] ∧ o.path ⊆ a.forest.names := by
      intro o ho
      obtain ⟨q, hq, hbase, howner⟩ := ha.exists_base_before hsplit ho
      refine ⟨List.mem_flatMap.2 ⟨q, hq, hbase⟩, ?_, ha.override_path hp ho⟩
      rw [howner]
      exact ha.name_mem (by rw [hsplit]; exact List.mem_append_left _ hq)
    have hcount : n + memberCount (p :: todo) = n + memberCount todo + (p.fields.length + p.methods.length) := by
      simp only [memberCount, List.flatMap_cons, List.length_append]
      omega
    rw [hcount] at h
    obtain ⟨r₁, hr₁, h₁⟩ := addProfile_holds (ha.name_mem hp) h hcons.fields_nodup
      hcons.methods_nodup (fun g hg => hcons.methods_owner hg)
      ⟨fun y hy he => hnew (he ▸ hfields y hy), fun g hg he => hnew (he ▸ hmethods g hg),
        fun o ho he => hnew (he ▸ hoverrides o ho)⟩ hbases
    have hcontents : contentsOf a.forest (done ++ [p]) = { contentsOf a.forest done with
        fields := (contentsOf a.forest done).fields ++ p.fields.map (p.name, ·)
        methods := (contentsOf a.forest done).methods ++ p.methods
        overrides := (contentsOf a.forest done).overrides ++ p.overrides } := by
      simp [contentsOf]
    rw [← hcontents] at h₁
    obtain ⟨r₂, hr₂, h₂⟩ := ih (done ++ [p]) (by simpa using hsplit) h₁
    refine ⟨r₂, ?_, h₂⟩
    rw [List.foldlM_cons, hr₁]
    exact hr₂

end Recording

/-- The number of symbols that an analysis needs. -/
def symbolCount (a : Analysis) : Nat := a.forest.names.length + Recording.memberCount a.profiles

/-- The number of meanings, fields and methods that a file declares. -/
def declarationCount (file : DeclFile) : Nat :=
  file.meanings.length +
    ((file.meanings.flatMap (·.fields)).length + (file.meanings.flatMap (·.methods)).length)

theorem length_flatMap_le {α β γ : Type} {f : α → List β} {g : α → List γ} {l : List α}
    (h : ∀ x ∈ l, (f x).length ≤ (g x).length) : (l.flatMap f).length ≤ (l.flatMap g).length := by
  induction l with
  | nil => exact Nat.le_refl _
  | cons x l ih =>
    rw [List.flatMap_cons, List.flatMap_cons, List.length_append, List.length_append]
    exact Nat.add_le_add (h x (by simp)) (ih fun y hy => h y (by simp [hy]))

theorem Complete.decls_sublist (ha : a.Complete) : (a.forest.nodes.map (·.decl)).Sublist a.file.meanings := by
  rw [ha.forest_eq, Forest.decls_ofDecls]
  exact Forest.foldl_register_sublist a.arena a.file.meanings ([], [])

/-- What every profile has at most as much of as its declaration, all profiles have at most as much of as the file. -/
theorem Complete.length_members_le (ha : a.Complete) {β γ : Type} {f : Profile → List β} {g : MeaningDecl → List γ}
    (h : ∀ above d asc subs, (f (Profile.ofDecl above d asc subs)).length ≤ (g d).length) :
    (a.profiles.flatMap f).length ≤ (a.file.meanings.flatMap g).length := by
  let declared : Text → List γ := fun m => ((a.forest.node? m).map fun n => g n.decl).getD []
  have hdeclared : ∀ n ∈ a.forest.nodes, declared n.name = g n.decl := by
    intro n hn
    simp [declared, Forest.node?_of_mem ha.sound.nodup hn]
  have hnodes : a.forest.names.flatMap declared = (a.forest.nodes.map (·.decl)).flatMap g := by
    rw [Forest.names, List.flatMap_map, List.flatMap_map]
    exact List.flatMap_congr hdeclared
  calc (a.profiles.flatMap f).length
      ≤ (a.profiles.flatMap fun p => declared p.name).length := by
        refine length_flatMap_le fun p hp => ?_
        obtain ⟨n, hn, above, asc, subs, rfl⟩ := ha.exists_ofDecl hp
        rw [Profile.ofDecl_name]
        exact (h above n.decl asc subs).trans_eq (congrArg List.length (hdeclared n hn).symm)
    _ = (a.forest.names.flatMap declared).length := by
        have hperm := (ha.perm.flatMap_right declared).length_eq
        rwa [List.flatMap_map] at hperm
    _ ≤ (a.file.meanings.flatMap g).length := by
        rw [hnodes]
        exact (ha.decls_sublist.flatMap g).length_le

theorem Complete.symbolCount_le (ha : a.Complete) : a.symbolCount ≤ declarationCount a.file := by
  have hnames : a.forest.names.length ≤ a.file.meanings.length := by
    simpa [Forest.names] using ha.decls_sublist.length_le
  refine Nat.add_le_add hnames (Nat.add_le_add (ha.length_members_le ?_) (ha.length_members_le ?_))
  · intro above d asc subs
    exact (Profile.length_ofDecl_le above d asc subs).1
  · intro above d asc subs
    exact (Profile.length_ofDecl_le above d asc subs).2

/-- All meanings of an analysis whose symbols fit into an arena get symbols, and there is room for the other symbols. -/
theorem Complete.exists_started (ha : a.Complete) (t : SymbolTable) (hcount : a.symbolCount ≤ 4294967296) : ∃ n,
    Recording.Started a.forest.names (n + Recording.memberCount a.profiles)
      (a.forest.names.foldl Recording.addMeaning { table := t.openArena.2, arena := t.openArena.1 }) := by
  obtain ⟨n, hn⟩ := Nat.exists_eq_add_of_le hcount
  have hroom := t.room_openArena
  rw [hn, symbolCount, show a.forest.names.length + Recording.memberCount a.profiles + n =
    n + Recording.memberCount a.profiles + a.forest.names.length by omega] at hroom
  exact ⟨n, Recording.foldl_addMeaning_started a.forest.names [] ⟨hroom, by simp⟩ (by simpa using ha.sound.nodup)⟩

/-- An analysis whose symbols fit into an arena can be recorded. -/
theorem Complete.exists_record (ha : a.Complete) (t : SymbolTable) (hcount : a.symbolCount ≤ 4294967296) :
    ∃ r n, a.record t = .ok r ∧
      Recording.Holds a.forest.names r.symbol (Recording.contentsOf a.forest a.profiles) n r := by
  obtain ⟨n, hstarted⟩ := ha.exists_started t hcount
  have h₀ := hstarted.holds
  obtain ⟨r₁, hr₁, h₁⟩ := Recording.exists_addParents ha.sound h₀
  obtain ⟨r₂, hr₂, h₂⟩ := Recording.exists_addSubmeanings ha.sound h₁
  obtain ⟨r₃, hr₃, h₃⟩ := Recording.exists_addProfiles ha a.profiles [] rfl h₂
  refine ⟨r₃, n, bind_eq_ok.2 ⟨r₁, hr₁, bind_eq_ok.2 ⟨r₂, hr₂, hr₃⟩⟩, ?_⟩
  rw [h₃.symbol]
  exact h₃

end MeaningForest.Analysis

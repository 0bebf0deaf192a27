import MeaningForest.Compilation.Session
import MeaningForest.Proofs.Recording

/-!
# Sessions

A session takes every declaration file: the analysis and the generation of code never fail, whatever the file declares,
and recording never fails as long as the symbols fit into an arena.  The symbols of the recorded file answer every
question as the analysis does (`Answers`).
-/

namespace MeaningForest

variable {lang : Language}

namespace Analysis

open Recording

/-- The questions to the symbols of a recorded analysis have answers, which are those of the analysis. -/
structure Answers (a : Analysis) (r : Recording) : Prop where
  ascending : ∀ m ∈ a.forest.names, ∃ asc, a.forest.ascending m = .ok asc ∧
    r.table.ascending (r.symbol m) = .ok (asc.map r.symbol)
  handlePath : ∀ m ∈ a.forest.names, ∀ asc, a.forest.ascending m = .ok asc → ∀ root, asc.head? = some root →
    r.table.handlePath (asc.map r.symbol) (r.symbol m) (r.symbol root) = .ok asc.dropLast.reverse
  meaning : ∀ m ∈ a.forest.names, ∃ d, r.table.meaning (r.symbol m) = .ok d ∧ d.name = m ∧
    d.submeanings = (a.forest.submeanings m).map r.symbol
  field : ∀ p ∈ a.profiles, ∀ x ∈ p.fields, ∃ d s, r.table.meaning (r.symbol p.name) = .ok d ∧
    d.fields.get? x.name = some s ∧ r.table.field s = .ok x
  override : ∀ p ∈ a.profiles, ∀ g ∈ p.methods, ∃ d s, r.table.meaning (r.symbol p.name) = .ok d ∧
    d.methods.get? g.name = some s ∧ ∀ asc ⊆ a.forest.names, ∃ call, a.resolve p.name g.name asc = .ok call ∧
      r.table.resolveOverride s (asc.map r.symbol) = .ok (call.map (·.text))
  cell : ∀ p ∈ a.profiles, ∀ root cell path, cellPath p root cell = .ok path →
    r.table.matchField (p.ascending.map r.symbol) 0 path.base cell = .ok path.text
  topLevel : ∀ m ∈ a.forest.names,
    r.table.topLevelNames (r.symbol m) = .ok (topLevelNames m (a.forest.submeanings m))
  locals : ∀ path ⊆ a.forest.names, ∀ params,
    r.table.dispatchNames (path.map r.symbol) params = .ok (dispatchNames params path)

variable {a : Analysis} {r : Recording} {n : Nat} {σ : Text → Symbol}

theorem holds_parentOf (ha : a.Complete) (h : Holds a.forest.names σ (contentsOf a.forest a.profiles) n r) {m : Text}
    (hm : m ∈ a.forest.names) : r.table.parentOf (σ m) = .ok ((a.forest.parent? m).map σ) := by
  obtain ⟨d, hd, hdm⟩ := h.meaning m hm
  refine bind_eq_ok.2 ⟨d, hd, ?_⟩
  rw [hdm.inherits]
  cases hp : a.forest.parent? m with
  | none => simp [contentsOf, hp, pure, Except.pure]
  | some p =>
    obtain ⟨new, hnew, -⟩ := h.handle p (ha.sound.closed m p hp)
    simp [contentsOf, hp, hnew, pure, Except.pure]

theorem holds_ascending (ha : a.Complete) (h : Holds a.forest.names σ (contentsOf a.forest a.profiles) n r) {m : Text}
    (hm : m ∈ a.forest.names) {asc : List Text} (hasc : Lineage a.forest.parent? m asc) :
    r.table.ascending (σ m) = .ok (asc.map σ) := by
  obtain ⟨d, hd, -⟩ := h.meaning m hm
  obtain ⟨new, hnew, harena⟩ := h.handle m hm
  have hmem : ∀ x ∈ asc, x ∈ a.forest.names := fun x hx => ha.sound.mem_names_of_lineage hasc hx hm
  -- the parents of symbols, where they can be read
  let parent : Symbol → Option Symbol := fun s => (r.table.parentOf s).toOption.join
  have hparent : ∀ x ∈ asc, parent (σ x) = (a.forest.parent? x).map σ := by
    intro x hx
    simp [parent, holds_parentOf ha h (hmem x hx), Except.toOption]
  have hstep : ∀ s ∈ asc.map σ, r.table.parentOf s = .ok (parent s) := by
    intro s hs
    obtain ⟨x, hx, rfl⟩ := List.mem_map.1 hs
    rw [hparent x hx, holds_parentOf ha h (hmem x hx)]
  have hlimit : (asc.map σ).length ≤ r.table.size r.arena + 1 := by
    obtain ⟨arena, harena, -, hlo, -⟩ := h.room
    have hlength := ha.sound.length_lineage_le hasc
    have hnames : a.forest.names.length = a.forest.nodes.length := List.length_map _
    simp only [SymbolTable.size, harena, Option.map_some, Option.getD_some, Arena.size, List.length_map]
    omega
  refine bind_eq_ok.2 ⟨d, hd, ?_⟩
  simp only [hnew, Option.map_some, Option.getD_some, harena]
  rw [← hnew]
  exact ancestry_eq_ok (hasc.map hparent) hstep hlimit

theorem holds_name {m : Text} (h : Holds a.forest.names σ (contentsOf a.forest a.profiles) n r)
    (hm : m ∈ a.forest.names) : r.table.name (σ m) = .ok m := by
  obtain ⟨d, hd, hdm⟩ := h.meaning m hm
  refine bind_eq_ok.2 ⟨.meaning d, SymbolTable.meaning_eq_ok.1 hd, ?_⟩
  rw [Slot.name, hdm.name]
  rfl

theorem holds_names (h : Holds a.forest.names σ (contentsOf a.forest a.profiles) n r) {l : List Text}
    (hl : l ⊆ a.forest.names) : (l.map σ).mapM r.table.name = .ok l := by
  refine mapM_eq_ok_iff.2 (List.forall₂_map_left_iff.2 (List.forall₂_same.2 ?_))
  exact fun m hm => holds_name h (hl hm)

/-- The text for a cell is that of the path that generated code has. -/
theorem holds_matchField (h : Holds a.forest.names σ (contentsOf a.forest a.profiles) n r) {asc : List Text}
    (hasc : asc ⊆ a.forest.names) (hne : asc ≠ []) (base cell : Text) :
    r.table.matchField (asc.map σ) 0 base cell = .ok (Code.CellPath.text ⟨base, Code.layerTags asc, cell⟩) := by
  obtain ⟨m, rest, rfl⟩ := List.exists_cons_of_ne_nil hne
  rw [SymbolTable.matchField]
  split
  · rename_i hlast
    obtain rfl : rest = [] := by
      rw [List.length_map, List.length_cons] at hlast
      exact List.length_eq_zero_iff.1 (by omega)
    rfl
  · have hnames := holds_names h hasc
    simp only [List.map_cons, Int.toNat_zero, List.drop_zero] at hnames ⊢
    rw [hnames]
    rfl

theorem holds_handlePath (ha : a.Complete) (h : Holds a.forest.names σ (contentsOf a.forest a.profiles) n r)
    {m root : Text} (hm : m ∈ a.forest.names) {asc : List Text} (hasc : Lineage a.forest.parent? m asc)
    (hroot : asc.head? = some root) :
    r.table.handlePath (asc.map σ) (σ m) (σ root) = .ok asc.dropLast.reverse := by
  have hmem : ∀ x ∈ asc, x ∈ a.forest.names := fun x hx => ha.sound.mem_names_of_lineage hasc hx hm
  have hnodup : (asc.map σ).Nodup :=
    hasc.nodup.map_on fun x hx y hy hxy => h.injective (hmem x hx) (hmem y hy) hxy
  have hlast : asc.map σ = asc.dropLast.map σ ++ [σ m] := by
    rw [← List.map_singleton, ← List.map_append, hasc.dropLast_append]
  have hpath : pathUp? ([] ++ asc.dropLast.map σ ++ σ m :: []) (σ m) (σ root) =
      some (asc.dropLast.map σ).reverse := by
    apply pathUp?_eq
    · rw [List.nil_append, ← hlast]
      exact hnodup
    · rw [← hlast, List.head?_map, hroot]
      rfl
  rw [List.nil_append, ← hlast] at hpath
  rw [SymbolTable.handlePath, hpath, ← List.map_reverse]
  exact holds_names h fun x hx => hmem x (List.mem_of_mem_dropLast (List.mem_reverse.1 hx))

theorem codeAlong_eq (a : Analysis) (g : Method) (q : List Text) :
    codeAlong (a.profiles.flatMap (·.overrides)) g q =
      (((a.overridesOf g.owner g.name).filter (·.path == q)).getLast?.map Override.call).map (·.text) := by
  rw [codeAlong, overridesOf, ← List.filter_flatMap, List.filter_filter, Option.map_map]
  congr 3
  funext o
  rw [Bool.and_comm]

theorem after?_map {f : Text → Symbol} {l names : List Text} {m : Text} (hm : m ∈ names) (hl : l ⊆ names)
    (hf : ∀ x ∈ names, ∀ y ∈ names, f x = f y → x = y) : after? (f m) (l.map f) = (after? m l).map (·.map f) := by
  induction l with
  | nil => rfl
  | cons x l ih =>
    rw [List.cons_subset] at hl
    rw [List.map_cons, after?, after?]
    by_cases hx : x = m
    · rw [if_pos hx, if_pos (by rw [hx])]
      rfl
    · rw [if_neg hx, if_neg fun he => hx (hf x hl.1 m hm he)]
      exact ih hl.2

theorem after?_subset {l rest : List Text} {m : Text} (h : after? m l = some rest) : rest ⊆ l := by
  induction l with
  | nil => cases h
  | cons x l ih =>
    rw [after?] at h
    split at h
    · cases h
      exact List.subset_cons_self x _
    · exact List.Subset.trans (ih h) (List.subset_cons_self x l)

theorem holds_resolveOverride (ha : a.Complete) (h : Holds a.forest.names σ (contentsOf a.forest a.profiles) n r)
    {g : Method} {s : Symbol} {e : MethodSlot}
    (he : HoldsMethod a.forest.names σ (a.profiles.flatMap (·.overrides)) r.table g s e)
    (howner : g.owner ∈ a.forest.names) {asc : List Text} (hasc : asc ⊆ a.forest.names) :
    ∃ call, a.resolve g.owner g.name asc = .ok call ∧
      r.table.resolveOverride s (asc.map σ) = .ok (call.map (·.text)) := by
  obtain ⟨tree, htree, hcode⟩ := ha.exists_overrideTree g.owner g.name
  have hafter := after?_map howner hasc fun x hx y hy => h.injective hx hy
  cases hrest : after? g.owner asc with
  | none =>
    refine ⟨none, by rw [resolve, hrest]; rfl, ?_⟩
    rw [hrest] at hafter
    rw [SymbolTable.resolveOverride]
    split
    · rfl
    · refine bind_eq_ok.2 ⟨e, he.read, ?_⟩
      rw [he.definedIn, hafter]
      rfl
  | some rest =>
    refine ⟨tree.resolve rest, by rw [resolve, hrest]; exact bind_eq_ok.2 ⟨tree, htree, rfl⟩, ?_⟩
    rw [hrest] at hafter
    have hne : (asc.map σ).isEmpty = false := by
      cases asc with
      | nil => cases hrest
      | cons x asc => rfl
    have hinits : ∀ q ∈ rest.inits, e.mapping.codeAt (q.map σ) = (tree.codeAt q).map (·.text) := by
      intro q hq
      have hsub : q ⊆ a.forest.names := fun x hx =>
        hasc (after?_subset hrest (((List.mem_inits q rest).1 hq).subset hx))
      rw [he.code q hsub, codeAlong_eq, hcode]
    have hresolve : e.mapping.resolve (rest.map σ) = (tree.resolve rest).map (·.text) := by
      rw [OverrideTree.resolve_eq_getLast?, OverrideTree.resolve_eq_getLast?, List.map_inits, List.filterMap_map,
        ← List.getLast?_map, List.map_filterMap]
      exact congrArg List.getLast? (List.filterMap_congr hinits)
    rw [SymbolTable.resolveOverride, hne]
    refine bind_eq_ok.2 ⟨e, he.read, ?_⟩
    rw [he.definedIn, hafter]
    exact congrArg Except.ok hresolve

theorem answers_of_holds (ha : a.Complete)
    (h : Holds a.forest.names r.symbol (contentsOf a.forest a.profiles) n r) : a.Answers r where
  ascending := by
    intro m hm
    obtain ⟨asc, hasc⟩ := ha.sound.exists_lineage m
    exact ⟨asc, ha.sound.ascending_eq hasc, holds_ascending ha h hm hasc⟩
  handlePath := by
    intro m hm asc hasc root hroot
    exact holds_handlePath ha h hm (Forest.lineage_of_ascending hasc) hroot
  meaning := by
    intro m hm
    obtain ⟨d, hd, hdm⟩ := h.meaning m hm
    exact ⟨d, hd, hdm.name, hdm.submeanings⟩
  field := by
    intro p hp x hx
    obtain ⟨d, hd, hdm⟩ := h.meaning p.name (ha.name_mem hp)
    obtain ⟨s, hs, hread⟩ := hdm.field (p.name, x) (List.mem_flatMap.2 ⟨p, hp, List.mem_map_of_mem hx⟩) rfl
    exact ⟨d, s, hd, hs, hread⟩
  override := by
    intro p hp g hg
    have howner := ha.method_owner hp hg
    have hname : p.name ∈ a.forest.names := ha.name_mem hp
    obtain ⟨d, hd, hdm⟩ := h.meaning p.name hname
    obtain ⟨s, e, hs, he⟩ := hdm.method g (List.mem_flatMap.2 ⟨p, hp, hg⟩) howner
    refine ⟨d, s, hd, hs, fun asc hasc => ?_⟩
    rw [← howner] at hname ⊢
    exact holds_resolveOverride ha h he hname hasc
  cell := by
    intro p hp root cell path hpath
    obtain ⟨selectors, -, hpath⟩ := bind_eq_ok.1 hpath
    obtain rfl := Except.ok.inj hpath
    obtain ⟨-, -, hasc, -⟩ := ha.exists_root hp
    exact holds_matchField h (fun m hm => ha.sound.mem_names_of_lineage hasc hm (ha.name_mem hp))
      (List.ne_nil_of_mem hasc.self_mem) _ cell
  topLevel := by
    intro m hm
    obtain ⟨d, hd, hdm⟩ := h.meaning m hm
    have hsubs : d.submeanings.mapM r.table.name = .ok (a.forest.submeanings m) := by
      rw [hdm.submeanings]
      exact holds_names h fun s hs => Forest.mem_names_of_parent? (ha.sound.mem_submeanings.1 hs)
    exact bind_eq_ok.2 ⟨m, holds_name h hm, bind_eq_ok.2 ⟨d, hd, bind_eq_ok.2 ⟨_, hsubs, rfl⟩⟩⟩
  locals := fun path hpath params => bind_eq_ok.2 ⟨path, holds_names h hpath, rfl⟩

end Analysis

open Analysis

namespace Session

variable {s s' : Session} {file : DeclFile} {a : Analysis}

/-- Nothing that a session had is left when the tables of the next file are filled. -/
theorem analyse_eq_record (s : Session) (file : DeclFile) : s.analyse file = (do
    let a ← ofFile s.settings file
    let r ← a.record s.released
    return (a, { settings := s.settings, table := r.table, tables := a, current := some r })) := by
  show ((ofFile s.settings file >>= fun a => a.record s.released >>= fun r => _) >>= fun _ => _) = _
  rw [bind_assoc]
  refine bind_congr fun a => ?_
  rw [bind_assoc]
  rfl

theorem analyse_eq_ok : s.analyse file = .ok (a, s') ↔ ofFile s.settings file = .ok a ∧
    ∃ r, a.record s.released = .ok r ∧
      s' = { settings := s.settings, table := r.table, tables := a, current := some r } := by
  rw [analyse_eq_record]
  constructor
  · intro h
    obtain ⟨b, hb, h⟩ := bind_eq_ok.1 h
    obtain ⟨r, hr, h⟩ := bind_eq_ok.1 h
    obtain ⟨rfl, rfl⟩ := Prod.mk.inj (Except.ok.inj h)
    exact ⟨hb, r, hr, rfl⟩
  · rintro ⟨ha, r, hr, rfl⟩
    exact bind_eq_ok.2 ⟨a, ha, bind_eq_ok.2 ⟨r, hr, rfl⟩⟩

/-- No declaration file makes a session fail: it is analysed, code can be generated for it, and the symbols it is
recorded in can be used for every question, provided that an index of 32 bits tells them apart. -/
theorem exists_generate (s : Session) (file : DeclFile) : ∃ a code, ofFile s.settings file = .ok a ∧
    a.fileCode s.settings = .ok code ∧
    file.generate s.settings = .ok (if a.findings.isEmpty then .ok code else .error (.faulty a)) ∧
    a.symbolCount ≤ declarationCount file ∧
    (a.symbolCount ≤ 4294967296 → ∃ r, a.Answers r ∧
      s.analyse file = .ok (a, { settings := s.settings, table := r.table, tables := a, current := some r }) ∧
      s.generate file = .ok (if a.findings.isEmpty then .ok code else .error (.faulty a),
        { settings := s.settings, table := r.table, tables := a, current := some r })) := by
  obtain ⟨a, hofFile, rfl, -, ha⟩ := exists_ofFile s.settings file
  obtain ⟨code, hcode⟩ := ha.exists_fileCode s.settings
  have hgenerate : a.generate s.settings = .ok (if a.findings.isEmpty then .ok code else .error (.faulty a)) := by
    rw [Analysis.generate]
    split
    · exact bind_eq_ok.2 ⟨code, hcode, rfl⟩
    · rfl
  refine ⟨a, code, hofFile, hcode, bind_eq_ok.2 ⟨a, hofFile, hgenerate⟩, ha.symbolCount_le, fun hcount => ?_⟩
  obtain ⟨r, n, hrecord, hholds⟩ := ha.exists_record _ hcount
  have hanalyse : s.analyse a.file =
      .ok (a, { settings := s.settings, table := r.table, tables := a, current := some r }) :=
    analyse_eq_ok.2 ⟨hofFile, r, hrecord, rfl⟩
  exact ⟨r, answers_of_holds ha hholds, hanalyse, bind_eq_ok.2 ⟨_, hanalyse, bind_eq_ok.2 ⟨_, hgenerate, rfl⟩⟩⟩

/-- Two meanings that are each other's parents, one that is declared twice and one without its parent. -/
def tangled : DeclFile :=
  let meaning (name parent : Text) : MeaningDecl :=
    { position := ⟨1, 1⟩, name, parent, parentPosition := ⟨1, 1⟩, doc := [], constructors := [], methods := []
      fields := [{ position := ⟨1, 1⟩, name := "count", isRef := false, type := "int", default := [] }] }
  { name := "tangled.mt", meanings := [meaning "A" "B", meaning "B" "A", meaning "A" [], meaning "C" "D"] }

theorem exists_generate_tangled : ∃ a r outcome, @ofFile .english {} tangled = .ok a ∧ a.Answers r ∧
    @generate .english { settings := {} } tangled =
      .ok (outcome, { settings := {}, table := r.table, tables := a, current := some r }) := by
  obtain ⟨a, code, ha, -, -, hcount, hrecorded⟩ := @exists_generate .english { settings := {} } tangled
  obtain ⟨r, hanswers, -, hgenerate⟩ := hrecorded (hcount.trans (by decide))
  exact ⟨a, r, _, ha, hanswers, hgenerate⟩

end Session

end MeaningForest

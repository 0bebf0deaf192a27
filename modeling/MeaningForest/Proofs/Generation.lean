import MeaningForest.Code.File
import MeaningForest.Proofs.Methods

/-!
# Generation of code

Code can be generated for every complete analysis (`Complete.exists_fileCode`).  It has one part for each profile
(`exists_declared`, `mem_meanings`), which `Complete.exists_meaningCode` gives in full.
-/

namespace MeaningForest

variable {lang : Language}

/-! ### Paths up an ancestry -/

theorem idxOf?_append_cons {α : Type} [DecidableEq α] {a : α} {u : List α} (h : a ∉ u) (v : List α) :
    (u ++ a :: v).idxOf? a = some u.length := by
  induction u with
  | nil => simp [List.idxOf?_cons]
  | cons b u ih =>
    simp only [List.mem_cons, not_or] at h
    simp [List.idxOf?_cons, Ne.symm h.1, ih h.2]

/-- The way up from `s` to `t` is what stands between them, and `t` itself, in reverse. -/
theorem pathUp?_eq {α : Type} [DecidableEq α] {s t : α} {u v w : List α} (hnd : (u ++ v ++ s :: w).Nodup)
    (ht : (v ++ [s]).head? = some t) : pathUp? (u ++ v ++ s :: w) s t = some v.reverse := by
  have hsi : (u ++ v ++ s :: w).idxOf? s = some (u ++ v).length := idxOf?_append_cons (notMem_of_nodup hnd) w
  have hti : (u ++ v ++ s :: w).idxOf? t = some u.length := by
    obtain ⟨x, hx⟩ : ∃ x, v ++ s :: w = t :: x := by
      cases v with
      | nil => exact ⟨w, by simpa using ht⟩
      | cons b v => exact ⟨v ++ s :: w, by simpa using ht⟩
    rw [List.append_assoc, hx] at hnd ⊢
    exact idxOf?_append_cons (notMem_of_nodup hnd) x
  rw [pathUp?, hsi, hti]
  have htake : (u ++ v ++ s :: w).take (u ++ v).length = u ++ v := List.take_left
  simp only [List.length_append, Nat.le_add_right, ↓reduceIte] at htake ⊢
  rw [htake, List.drop_left]

namespace Analysis

open Code

variable {a : Analysis}

/-- From a meaning to its root the embedded handles are those of its ancestors, nearest first. -/
theorem handlePath_root {asc : List Text} {m root : Text} (hnd : asc.Nodup) (hlast : asc = asc.dropLast ++ [m])
    (hroot : asc.head? = some root) : handlePath asc m root = .ok asc.dropLast.reverse := by
  have hpath : pathUp? ([] ++ asc.dropLast ++ m :: []) m root = some asc.dropLast.reverse := by
    apply pathUp?_eq
    · simpa [← hlast] using hnd
    · rwa [← hlast]
  rw [List.nil_append, ← hlast] at hpath
  rw [handlePath, hpath]

/-! ### The code of a meaning -/

/-- The path from a handle of a meaning to a cell of its layer. -/
def pathTo (p : Profile) (cell : Text) : CellPath :=
  ⟨rootLayer p.ascending.dropLast.reverse, layerTags p.ascending, cell⟩

/-- The code of a meaning, given the profiles from its root on and the code of its methods. -/
def codeOf (a : Analysis) (p root : Profile) (below : List Profile) (methods : List MethodCode) : MeaningCode where
  info := ⟨p.name, a.package, p.parent?⟩
  layer := ⟨p.name, p.fields, p.submeanings⟩
  handle := ⟨p.name, p.decl.doc, p.parent?⟩
  downcasts := p.submeanings.map fun sub => ⟨p.name, sub, pathTo p "variant"⟩
  accessors := p.fields.map fun f => ⟨p.name, f, pathTo p f.name⟩
  constructors :=
    { profile := p, arenaType := a.arena, root := root.name, below := below.map (·.name)
      literal := .ofChain root.name root.fields (below.map fun q => (q.name, q.fields)) }
  methods
  overrides := p.overrides.map (overrideCode p)

/-- The chain along the ancestry of a profile, which begins with its root. -/
theorem Complete.exists_root (ha : a.Complete) {p : Profile} (hp : p ∈ a.profiles) : ∃ root below,
    Lineage a.forest.parent? p.name p.ascending ∧ a.Chain p.ascending (root :: below) ∧ p ∈ root :: below := by
  obtain ⟨asc, us, hasc, hchain⟩ := ha.exists_chain_of_mem hp
  have heq : p.ascending = asc := by rw [hchain.ascending_eq rfl, hchain.names_eq]
  subst heq
  cases us with
  | nil => exact ⟨p, [], hasc, hchain, by simp⟩
  | cons root below => exact ⟨root, below ++ [p], hasc, hchain, by simp⟩

theorem Complete.exists_methodCode (ha : a.Complete) (p : Profile) (f : Method) : ∃ t,
    a.overrideTree p.name f.name = .ok t ∧
      a.methodCode p f = .ok ⟨p.name, f.name, f.decl, .ofTree f.params.names receiverName [] t⟩ := by
  obtain ⟨t, ht, -⟩ := ha.exists_overrideTree p.name f.name
  exact ⟨t, ht, by rw [methodCode, ht]; rfl⟩

theorem Complete.exists_meaningCode (ha : a.Complete) {p : Profile} (hp : p ∈ a.profiles) : ∃ root below methods,
    a.Chain p.ascending (root :: below) ∧ p.methods.mapM (a.methodCode p) = .ok methods ∧
      a.meaningCode p = .ok (a.codeOf p root below methods) := by
  obtain ⟨root, below, hasc, hchain, -⟩ := ha.exists_root hp
  obtain ⟨methods, hmethods⟩ := exists_mapM_ok (l := p.methods) (f := a.methodCode p) fun f _ => by
    obtain ⟨t, -, ht⟩ := ha.exists_methodCode p f
    exact ⟨_, ht⟩
  refine ⟨root, below, methods, hchain, hmethods, ?_⟩
  have hhead : p.ascending.head? = some root.name := by rw [← hchain.names_eq]; rfl
  have hpath : cellPath p root.name "variant" = .ok (pathTo p "variant") := by
    rw [cellPath, handlePath_root hasc.nodup hasc.dropLast_append.symm hhead]
    rfl
  rw [meaningCode, hchain.profiles]
  simp only [bind, Except.bind]
  rw [hpath]
  simp only
  rw [hmethods]
  rfl

/-! ### The code of a file -/

/-- Code can be generated for every complete analysis. -/
theorem Complete.exists_fileCode (ha : a.Complete) (settings : Settings) : ∃ code, a.fileCode settings = .ok code := by
  obtain ⟨ps, hps⟩ := exists_mapM_ok fun m hm => ha.exists_profile (m := m) hm
  have hdeclared : a.declared = .ok ps := hps
  obtain ⟨meanings, hmeanings⟩ := exists_mapM_ok (l := ps) (f := a.meaningCode) fun p hp => by
    obtain ⟨m, -, hm⟩ := mem_of_mapM_ok hps hp
    obtain ⟨root, below, methods, -, -, hcode⟩ := ha.exists_meaningCode (mem_of_find hm).1
    exact ⟨_, hcode⟩
  rw [fileCode, hdeclared]
  simp only [bind, Except.bind]
  rw [hmeanings]
  exact ⟨_, rfl⟩

/-- The parts of a generated file are the codes of the profiles, in the order of declaration. -/
theorem Complete.exists_declared (ha : a.Complete) {settings : Settings} {code : FileCode}
    (h : a.fileCode settings = .ok code) : ∃ ps : List Profile, ps.map (·.name) = a.forest.names ∧
      (∀ p, p ∈ ps ↔ p ∈ a.profiles) ∧ ps.mapM a.meaningCode = .ok code.meanings := by
  obtain ⟨ps, hps, h⟩ := bind_eq_ok.1 h
  obtain ⟨meanings, hmeanings, h⟩ := bind_eq_ok.1 h
  cases h
  refine ⟨ps, map_eq_of_mapM_ok (fun _ _ hp => (mem_of_find hp).2) hps, fun p => ⟨fun hp => ?_, fun hp => ?_⟩,
    hmeanings⟩
  · obtain ⟨m, -, hm⟩ := mem_of_mapM_ok hps hp
    exact (mem_of_find hm).1
  · exact mem_of_forall_ok hps (ha.name_mem hp) (ha.profile_name hp)

theorem Complete.mem_meanings (ha : a.Complete) {settings : Settings} {code : FileCode}
    (h : a.fileCode settings = .ok code) {c : MeaningCode} :
    c ∈ code.meanings ↔ ∃ p ∈ a.profiles, a.meaningCode p = .ok c := by
  obtain ⟨ps, -, hmem, hmeanings⟩ := ha.exists_declared h
  constructor
  · intro hc
    obtain ⟨p, hp, hpc⟩ := mem_of_mapM_ok hmeanings hc
    exact ⟨p, (hmem p).1 hp, hpc⟩
  · rintro ⟨p, hp, hpc⟩
    exact mem_of_forall_ok hmeanings ((hmem p).2 hp) hpc

/-- A part of a generated file is the code of a profile, given in full. -/
theorem Complete.exists_part (ha : a.Complete) {settings : Settings} {code : FileCode}
    (h : a.fileCode settings = .ok code) {c : MeaningCode} (hc : c ∈ code.meanings) : ∃ p ∈ a.profiles,
      ∃ root below methods, a.Chain p.ascending (root :: below) ∧ c = a.codeOf p root below methods := by
  obtain ⟨p, hp, hpc⟩ := (ha.mem_meanings h).1 hc
  obtain ⟨root, below, methods, hchain, -, hpc'⟩ := ha.exists_meaningCode hp
  rw [hpc] at hpc'
  exact ⟨p, hp, root, below, methods, hchain, Except.ok.inj hpc'⟩

theorem meaningCode_handle {p : Profile} {c : MeaningCode} (h : a.meaningCode p = .ok c) :
    c.handle.meaning = p.name := by
  obtain ⟨chain, -, h⟩ := bind_eq_ok.1 h
  cases chain with
  | nil => cases h
  | cons root below =>
    obtain ⟨variant, -, h⟩ := bind_eq_ok.1 h
    obtain ⟨methods, -, h⟩ := bind_eq_ok.1 h
    cases h
    rfl

/-- A generated file has one part for each meaning, in the order of declaration. -/
theorem Complete.map_meaning (ha : a.Complete) {settings : Settings} {code : FileCode}
    (h : a.fileCode settings = .ok code) : code.meanings.map (·.handle.meaning) = a.forest.names := by
  obtain ⟨ps, hnames, -, hmeanings⟩ := ha.exists_declared h
  have hcodes := (mapM_eq_ok_iff.1 hmeanings).imp fun _ _ hc => (meaningCode_handle hc).symm
  rw [← hnames, eq_comm, ← List.forall₂_eq_eq_eq]
  exact List.forall₂_map_left_iff.2 (List.forall₂_map_right_iff.2 hcodes)

theorem Complete.part_unique (ha : a.Complete) {settings : Settings} {code : FileCode}
    (h : a.fileCode settings = .ok code) {c c' : MeaningCode} (hc : c ∈ code.meanings) (hc' : c' ∈ code.meanings)
    (hname : c.handle.meaning = c'.handle.meaning) : c = c' := by
  have hnodup : (code.meanings.map (·.handle.meaning)).Nodup := by
    rw [ha.map_meaning h]
    exact ha.sound.nodup
  exact List.inj_on_of_nodup_map hnodup hc hc' hname

/-- The methods in a part are those of the profile. -/
theorem Complete.mapM_methods (ha : a.Complete) {settings : Settings} {code : FileCode}
    (h : a.fileCode settings = .ok code) {p root : Profile} {below : List Profile} {methods : List MethodCode}
    (hp : p ∈ a.profiles) (hpart : a.codeOf p root below methods ∈ code.meanings) :
    p.methods.mapM (a.methodCode p) = .ok methods := by
  obtain ⟨root', below', methods', -, hmethods, hpc⟩ := ha.exists_meaningCode hp
  have hpart' := (ha.mem_meanings h).2 ⟨p, hp, hpc⟩
  obtain rfl : methods = methods' := congrArg MeaningCode.methods (ha.part_unique h hpart hpart' rfl)
  exact hmethods

theorem Complete.part_iff (ha : a.Complete) {settings : Settings} {code : FileCode}
    (h : a.fileCode settings = .ok code) {part : MeaningCode} (hpart : part ∈ code.meanings) :
    ∀ c ∈ code.meanings, c.handle.meaning = part.handle.meaning ↔ c = part := by
  intro c hc
  constructor
  · exact ha.part_unique h hc hpart
  · rintro rfl
    rfl

/-- Without findings every declared meaning has its part. -/
theorem Complete.exists_codeOf (ha : a.Complete) (hclean : a.findings = []) {settings : Settings} {code : FileCode}
    (h : a.fileCode settings = .ok code) {d : MeaningDecl} (hd : d ∈ a.file.meanings) : ∃ p ∈ a.profiles, p.decl = d ∧
      Lineage a.forest.parent? p.name p.ascending ∧ ∃ root below methods, a.Chain p.ascending (root :: below) ∧
        a.codeOf p root below methods ∈ code.meanings := by
  obtain ⟨p, hp, hdecl⟩ := ha.exists_profile_of_decl hclean hd
  obtain ⟨-, -, hasc, -⟩ := ha.exists_root hp
  obtain ⟨root, below, methods, hchain, -, hpc⟩ := ha.exists_meaningCode hp
  exact ⟨p, hp, hdecl, hasc, root, below, methods, hchain, (ha.mem_meanings h).2 ⟨p, hp, hpc⟩⟩

theorem fileCode_arena {settings : Settings} {code : FileCode} (h : a.fileCode settings = .ok code) :
    code.arena = a.arena := by
  obtain ⟨ps, -, h⟩ := bind_eq_ok.1 h
  obtain ⟨meanings, -, h⟩ := bind_eq_ok.1 h
  cases h
  rfl

end Analysis

/-! ### Parts of the lines -/

/-- What a list maps to has the image of each element in one piece. -/
theorem infix_flatMap_of_mem {α β : Type} {f : α → List β} {xs : List α} {x : α} (h : x ∈ xs) :
    f x <:+: xs.flatMap f := by
  obtain ⟨u, v, rfl⟩ := List.append_of_mem h
  exact ⟨u.flatMap f, v.flatMap f, by simp⟩

namespace Code

/-- What is inside of a body stands in the braces, one level deeper. -/
theorem infix_braced {opening : Text} {xs body : List Line} (h : xs <:+: body) :
    indented xs <:+: braced opening body := by
  have hindented : indented xs <:+: indented body := List.IsInfix.map _ h
  refine hindented.trans (List.IsInfix.trans ?_ (List.prefix_append _ _).isInfix)
  exact (List.suffix_cons _ _).isInfix.trans (List.prefix_append _ _).isInfix

/-- The lines for a meaning, in sections. -/
def MeaningCode.sections (c : MeaningCode) : List (List Line) :=
  [c.info.lines, c.layer.lines, c.handle.lines, c.downcasts.flatMap (·.lines), c.accessors.flatMap (·.lines),
    c.constructors.lines, c.methods.flatMap (·.lines), c.overrides.flatMap (·.lines)]

theorem MeaningCode.section_infix {c : MeaningCode} {xs : List Line} (h : xs ∈ c.sections) : xs <:+: c.lines := by
  have hlines : c.lines = c.sections.flatMap id := by simp [lines, sections]
  rw [hlines]
  exact infix_flatMap_of_mem (f := id) h

theorem MeaningCode.lines_infix {code : FileCode} {part : MeaningCode} (h : part ∈ code.meanings) :
    part.lines <:+: code.lines := by
  have hrest : code.meanings.flatMap (·.lines) <:+ code.restLines := List.suffix_append _ _
  exact (infix_flatMap_of_mem h).trans (hrest.isInfix.trans (List.suffix_append _ _).isInfix)

theorem ConstructorCode.lines_infix {code : FileCode} {part : MeaningCode} (h : part ∈ code.meanings) :
    part.constructors.lines <:+: code.lines :=
  (MeaningCode.section_infix (by simp [MeaningCode.sections])).trans (MeaningCode.lines_infix h)

end Code

end MeaningForest

import MeaningForest.Proofs.FreeNames
import MeaningForest.Proofs.Literals
import MeaningForest.Proofs.Names

/-!
# Names that constructors refer to

The factory and the initializer of a meaning have the parameters of its constructor, and their bodies mention names of
their own: types of handles and layers, functions of other meanings, the runtime package and local variables.  A
parameter of such a name would be meant instead.

* `mem_references`: the names that the bodies mention are package-level names and four others;
* `Complete.params_notMem_locals`: a parameter is none of the four;
* `exists_hygienic_iff`: whether the bodies mean what they mention depends on the other names alone;
* `hygienic_fails_takenOver`: that can fail, as nothing keeps the parameters from package-level names.
-/

namespace MeaningForest

open Code

variable {lang : Language}

theorem Signature.names_of_parse {params : Text} {s : Signature} (h : Signature.parse params = .ok s) {name : Text}
    (hname : name ∈ s.names) : name ≠ receiverName ∧ name ≠ runtimeName := by
  have hfields : ∀ {fields : List Host.Field} {s : Signature}, ofFields fields = .ok s → ∀ name ∈ s.names,
      name ≠ receiverName ∧ name ≠ runtimeName := by
    intro fields s h name hname
    rw [ofFields] at h
    cases hfault : (fields.flatMap (·.names)).findSome? reserved? with
    | some fault => simp [hfault] at h
    | none =>
      simp only [hfault, Except.ok.injEq] at h
      rw [← h] at hname
      have hfree : reserved? name = none := List.findSome?_eq_none_iff.1 hfault name hname
      rw [reserved?] at hfree
      split at hfree
      · cases hfree
      · split at hfree
        · cases hfree
        · exact ⟨‹_›, ‹_›⟩
  rw [parse] at h
  split at h
  · cases h
    cases hname
  · split at h
    · cases h
    · exact hfields h name hname
    · cases h

namespace Code

/-! ### References -/

/-- The names in the text of a literal, apart from the types and values of the cells: the runtime package in each cell,
and the types of tags and layers. -/
def LayerLiteral.references : LayerLiteral → List Text
  | last cells tag => cells.map (fun _ => runtimeName) ++ [tag]
  | next cells tag layer rest => cells.map (fun _ => runtimeName) ++ [tag, layer] ++ rest.references

/-- The types that a literal mentions, and the packages in its cells. -/
def Composite.types : Composite → List Text
  | last _ tag => [tag]
  | next _ tag layer rest => tag :: layer :: rest.types

def Composite.packages : Composite → List Text
  | last cells _ => cells.map (·.package)
  | next cells _ _ rest => cells.map (·.package) ++ rest.packages

namespace ConstructorCode

variable (c : ConstructorCode)

/-- The unqualified names in the bodies of the factory and the initializer, apart from forwarded arguments. -/
def references : List Text :=
  c.root :: c.below ++ [c.objectVariable, runtimeName, c.arenaVariable, layerName c.root] ++ c.literal.references ++
    (constructCalls c.profile c.objectVariable ++ constructCalls c.profile receiverName).flatMap
      fun call => [call.function, call.var]

/-- The names that the constructor of the meaning declares for itself. -/
def parameters : List Text := c.profile.ctor.params.names ++ c.profile.ctor.typeParams

/-- No parameter is meant where the bodies mention a name. -/
def Hygienic : Prop := ∀ name ∈ c.parameters, name ∉ c.references

/-- The names in the bodies that are not package-level names. -/
def locals : List Text := [runtimeName, receiverName, c.arenaVariable, c.objectVariable]

end ConstructorCode

/-- The package-level names that construct an object of the given ancestry. -/
def constructionNames (asc : List Text) (m : Text) : List Text :=
  asc ++ asc.map layerName ++ layerTags asc ++ [terminalName m, ctorName m] ++
    asc.dropLast.getLast?.toList.map initName

theorem exists_mem_block {opening closing : Text} {body : List Line} {l : Line} (h : l ∈ body) :
    ∃ x ∈ block opening body closing, x.text = l.text :=
  ⟨_, List.mem_append_left _ (List.mem_cons_of_mem _ (List.mem_map_of_mem h)), rfl⟩

theorem LayerLiteral.exists_mentions {literal : LayerLiteral} {name : Text} (h : name ∈ literal.references) :
    ∃ l ∈ literal.lines, name <:+: l.text := by
  have hcells : ∀ cells : List FieldSlot, name ∈ cells.map (fun _ => runtimeName) →
      ∃ l ∈ cellLines cells, name <:+: l.text := by
    intro cells hname
    obtain ⟨f, hf, rfl⟩ := List.mem_map.1 hname
    refine ⟨_, List.mem_map_of_mem hf, f.name ++ ": ", ".New" ++ cellKind f ++ "[" ++ f.type ++ "](" ++ f.init ++ ")" ++
      ",", ?_⟩
    simp [line, cellInit]
  induction literal with
  | last cells tag =>
    rcases List.mem_append.1 h with h | h
    · obtain ⟨l, hl, hname⟩ := hcells cells h
      exact ⟨l, List.mem_append_left _ hl, hname⟩
    · obtain rfl := List.mem_singleton.1 h
      exact ⟨_, List.mem_append_right _ (List.mem_singleton_self _), "variant: ", "\x7b\x7d,", rfl⟩
  | next cells tag layer rest ih =>
    simp only [references, List.mem_append, List.mem_cons, List.not_mem_nil, or_false] at h
    rcases h with (h | rfl | rfl) | h
    · obtain ⟨l, hl, hname⟩ := hcells cells h
      exact ⟨l, List.mem_append_left _ hl, hname⟩
    · refine ⟨_, List.mem_append_right _ (List.mem_cons_self ..), "variant: ", "\x7bnext: &" ++ layer ++ "\x7b", ?_⟩
      simp [line]
    · exact ⟨_, List.mem_append_right _ (List.mem_cons_self ..), "variant: " ++ tag ++ "\x7bnext: &", "\x7b", rfl⟩
    · obtain ⟨l, hl, hname⟩ := ih h
      obtain ⟨x, hx, htext⟩ := exists_mem_block hl
      exact ⟨x, List.mem_append_right _ hx, htext ▸ hname⟩

theorem HandleCall.mentions (call : HandleCall) {name : Text} (h : name ∈ [call.function, call.var]) :
    name <:+: call.text := by
  have hfirst : call.var <:+: andMore (call.var ++ selections call.selectors) call.arguments := by
    rw [andMore]
    split
    · exact ⟨[], selections call.selectors, rfl⟩
    · exact ⟨[], selections call.selectors ++ ", " ++ call.arguments, by simp⟩
  simp only [List.mem_cons, List.not_mem_nil, or_false] at h
  rcases h with rfl | rfl
  · exact ⟨[], call.typeArgs ++ "(" ++ andMore (call.var ++ selections call.selectors) call.arguments ++ ")",
      by simp [HandleCall.text]⟩
  · obtain ⟨u, v, huv⟩ := hfirst
    exact ⟨call.function ++ call.typeArgs ++ "(" ++ u, v ++ ")", by simp [HandleCall.text, ← huv]⟩

/-- Each name of the bodies stands in a line of the factory or the initializer. -/
theorem ConstructorCode.exists_mentions {c : ConstructorCode} {name : Text} (h : name ∈ c.references) :
    ∃ l ∈ c.newLines ++ c.initLines, name <:+: l.text := by
  have hnew : ∀ l ∈ c.allocationLines ++ (constructCalls c.profile c.objectVariable).map (fun call => line call.text) ++
      [line ("return " ++ c.objectVariable)], ∃ x ∈ c.newLines ++ c.initLines, x.text = l.text := by
    intro l hl
    obtain ⟨x, hx, htext⟩ := exists_mem_block hl
    exact ⟨x, List.mem_append_left _ (List.mem_cons_of_mem _ (List.mem_append_left _ hx)), htext⟩
  have hallocation : ∀ l ∈ c.allocationLines, name <:+: l.text → ∃ x ∈ c.newLines ++ c.initLines, name <:+: x.text := by
    intro l hl hname
    obtain ⟨x, hx, htext⟩ := hnew l (List.mem_append_left _ (List.mem_append_left _ hl))
    exact ⟨x, hx, htext ▸ hname⟩
  have hopening := hallocation _ (List.mem_append_left _ (List.mem_cons_self ..))
  simp only [references, List.mem_append, List.mem_cons, List.not_mem_nil, or_false, List.mem_flatMap] at h
  rcases h with (((rfl | h) | rfl | rfl | rfl | rfl) | h) | ⟨call, h | h, hname⟩
  · refine hopening ⟨c.objectVariable ++ " := " ++ c.wrapping, "\x7broot: " ++ runtimeName ++ ".Allocate(" ++
      c.arenaVariable ++ ", &" ++ layerName c.root ++ "\x7b", ?_⟩
    simp [line]
  · have hwrapping : name <:+: c.wrapping := by
      obtain ⟨u, v, huv⟩ := List.append_of_mem (List.mem_reverse.2 h)
      exact ⟨u.flatMap (· ++ [0x7b]), [0x7b] ++ v.flatMap (· ++ [0x7b]), by simp [wrapping, huv]⟩
    refine hopening (hwrapping.trans ⟨c.objectVariable ++ " := ", c.root ++ "\x7broot: " ++ runtimeName ++
      ".Allocate(" ++ c.arenaVariable ++ ", &" ++ layerName c.root ++ "\x7b", ?_⟩)
    simp [line]
  · refine hopening ⟨[], " := " ++ c.wrapping ++ c.root ++ "\x7broot: " ++ runtimeName ++ ".Allocate(" ++
      c.arenaVariable ++ ", &" ++ layerName c.root ++ "\x7b", ?_⟩
    simp [line]
  · refine hopening ⟨c.objectVariable ++ " := " ++ c.wrapping ++ c.root ++ "\x7broot: ", ".Allocate(" ++
      c.arenaVariable ++ ", &" ++ layerName c.root ++ "\x7b", ?_⟩
    simp [line]
  · refine hopening ⟨c.objectVariable ++ " := " ++ c.wrapping ++ c.root ++ "\x7broot: " ++ runtimeName ++ ".Allocate(",
      ", &" ++ layerName c.root ++ "\x7b", ?_⟩
    simp [line]
  · exact hopening ⟨c.objectVariable ++ " := " ++ c.wrapping ++ c.root ++ "\x7broot: " ++ runtimeName ++ ".Allocate(" ++
      c.arenaVariable ++ ", &", "\x7b", rfl⟩
  · obtain ⟨l, hl, hname⟩ := LayerLiteral.exists_mentions h
    obtain ⟨x, hx, htext⟩ := exists_mem_block hl
    exact hallocation x hx (htext ▸ hname)
  · obtain ⟨x, hx, htext⟩ := hnew (line call.text) (List.mem_append_left _ (List.mem_append_right _
      (List.mem_map_of_mem (f := fun call : HandleCall => line call.text) h)))
    exact ⟨x, hx, htext ▸ call.mentions (by simpa using hname)⟩
  · obtain ⟨x, hx, htext⟩ := exists_mem_block (List.mem_map_of_mem (f := fun call : HandleCall => line call.text) h)
    exact ⟨x, List.mem_append_right _ (List.mem_append_left _ hx), htext ▸ call.mentions (by simpa using hname)⟩

theorem LayerLiteral.eq_of_mem_packages {l : LayerLiteral} {name : Text} (h : name ∈ l.composite.packages) :
    name = runtimeName := by
  have hcells : ∀ cells : List FieldSlot, ∀ package ∈ (cells.map CellEntry.ofField).map (·.package),
      package = runtimeName := by
    intro cells package hpackage
    obtain ⟨e, he, rfl⟩ := List.mem_map.1 hpackage
    obtain ⟨f, -, rfl⟩ := List.mem_map.1 he
    rfl
  induction l with
  | last cells tag => exact hcells cells name h
  | next cells tag layer rest ih =>
    rcases List.mem_append.1 h with h | h
    · exact hcells cells name h
    · exact ih h

theorem LayerLiteral.mem_references {l : LayerLiteral} {name : Text} :
    name ∈ l.references ↔ name ∈ l.composite.packages ∨ name ∈ l.composite.types := by
  have hcells : ∀ cells : List FieldSlot, (cells.map CellEntry.ofField).map (·.package) =
      cells.map fun _ => runtimeName := by
    intro cells
    rw [List.map_map]
    rfl
  induction l with
  | last cells tag =>
    rw [references, composite, Composite.packages, Composite.types, hcells, List.mem_append]
  | next cells tag layer rest ih =>
    simp only [references, composite, Composite.packages, Composite.types, hcells, List.mem_append, List.mem_cons,
      List.not_mem_nil, or_false, ih]
    grind only

theorem LayerLiteral.mem_types_ofChain {p : Profile} {below : List Profile} {m name : Text}
    (hlast : ((p :: below).map (·.name)).getLast? = some m) :
    name ∈ (ofChain p.name p.fields (below.map fun q => (q.name, q.fields))).composite.types ↔
      name ∈ (below.map (·.name)).map layerName ∨ name ∈ layerTags ((p :: below).map (·.name)) ∨
        name = terminalName m := by
  induction below generalizing p with
  | nil =>
    obtain rfl : p.name = m := by simpa using hlast
    simp [ofChain, composite, Composite.types, layerTags]
  | cons b below ih =>
    have ih := ih (p := b) (by simpa using hlast)
    simp only [List.map_cons] at ih
    simp only [List.map_cons, ofChain, composite, Composite.types, layerTags, List.mem_cons, ih]
    grind only

theorem LayerLiteral.mem_references_ofChain {p : Profile} {below : List Profile} {m name : Text}
    (hlast : ((p :: below).map (·.name)).getLast? = some m) (hne : name ≠ runtimeName) :
    name ∈ (ofChain p.name p.fields (below.map fun q => (q.name, q.fields))).references ↔
      name ∈ (below.map (·.name)).map layerName ∨ name ∈ layerTags ((p :: below).map (·.name)) ∨
        name = terminalName m := by
  rw [mem_references, or_iff_right fun h => hne (eq_of_mem_packages h), mem_types_ofChain hlast]

theorem mem_constructCalls {p : Profile} {var name : Text} :
    name ∈ (constructCalls p var).flatMap (fun call => [call.function, call.var]) ↔
      name = var ∨ name = ctorName p.name ∨ name ∈ p.parent?.toList.map initName := by
  rw [constructCalls]
  cases p.parent? <;> simp <;> grind only

/-- The bodies mention package-level names and others, given what the literal mentions. -/
theorem ConstructorCode.mem_references {c : ConstructorCode} {name : Text}
    (hroot : c.root :: c.below = c.profile.ascending)
    (hliteral : name ≠ runtimeName → (name ∈ c.literal.references ↔ name ∈ c.below.map layerName ∨
      name ∈ layerTags c.profile.ascending ∨ name = terminalName c.profile.name)) :
    name ∈ c.references ↔ name ∈ constructionNames c.profile.ascending c.profile.name ∨ name ∈ c.locals := by
  by_cases hruntime : name = runtimeName
  · simp [hruntime, references, locals]
  · have hascending : name ∈ c.profile.ascending ↔ name = c.root ∨ name ∈ c.below := by
      rw [← hroot]
      exact List.mem_cons
    have hlayers : name ∈ c.profile.ascending.map layerName ↔
        name = layerName c.root ∨ name ∈ c.below.map layerName := by
      rw [← hroot]
      exact List.mem_cons
    have hparent : c.profile.ascending.dropLast.getLast? = c.profile.parent? := rfl
    simp only [references, constructionNames, locals, List.flatMap_append, List.mem_append, mem_constructCalls, hparent,
      hascending, hlayers, hliteral hruntime, List.mem_cons, List.not_mem_nil, or_false]
    grind only

end Code

namespace Analysis

variable {a : Analysis} {settings : Settings} {code : FileCode}

theorem mem_references {p root : Profile} {below : List Profile} {methods : List MethodCode}
    (hasc : Lineage a.forest.parent? p.name p.ascending) (hchain : a.Chain p.ascending (root :: below)) (name : Text) :
    name ∈ (a.codeOf p root below methods).constructors.references ↔
      name ∈ constructionNames p.ascending p.name ∨ name ∈ (a.codeOf p root below methods).constructors.locals := by
  have hnames := hchain.names_eq
  refine ConstructorCode.mem_references (c := (a.codeOf p root below methods).constructors) hnames fun hne => ?_
  have hlast : ((root :: below).map (·.name)).getLast? = some p.name := hnames ▸ hasc.getLast?_eq
  have hliteral := LayerLiteral.mem_references_ofChain hlast hne
  rw [hnames] at hliteral
  exact hliteral

theorem Complete.constructionNames_subset (ha : a.Complete) (hcode : a.fileCode settings = .ok code) {m : Text}
    {asc : List Text} (hasc : Lineage a.forest.parent? m asc) (hm : m ∈ a.forest.names) :
    constructionNames asc m ⊆ code.packageNames := by
  have hnames : ∀ n ∈ asc, n ∈ a.forest.names := fun n hn => ha.sound.mem_names_of_lineage hasc hn hm
  intro name hname
  simp only [constructionNames, List.mem_append, List.mem_cons, List.not_mem_nil, or_false, List.mem_map] at hname
  rcases hname with (((hname | ⟨n, hn, rfl⟩) | htag) | rfl | rfl) | ⟨n, hn, rfl⟩
  · exact ha.mem_packageNames hcode (hnames name hname) (List.mem_cons_self ..)
  · exact ha.mem_packageNames hcode (hnames n hn) (by simp [Forest.topLevel, topLevelNames])
  · exact ha.layerTags_subset hcode hasc hm htag
  · exact ha.mem_packageNames hcode hm (by simp [Forest.topLevel, topLevelNames])
  · exact ha.mem_packageNames hcode hm (by simp [Forest.topLevel, topLevelNames])
  · have hmem : n ∈ asc := List.mem_of_mem_dropLast (List.mem_of_getLast? (by simpa using hn))
    exact ha.mem_packageNames hcode (hnames n hmem) (by simp [Forest.topLevel, topLevelNames])

/-- The parameters of a constructor are kept from the names of the receiver, the runtime package and the local
variables. -/
theorem Complete.params_notMem_locals (ha : a.Complete) (hclean : a.findings = []) {c : ConstructorCode}
    (hp : c.profile ∈ a.profiles) {name : Text} (hname : name ∈ c.profile.ctor.params.names) : name ∉ c.locals := by
  obtain ⟨hreceiver, hruntime⟩ := Signature.names_of_parse (ha.ctor_clean hclean hp).1 hname
  have harena : name ≠ c.arenaVariable := fun heq => freeName_notMem "arena" _ (heq ▸ hname)
  have hobject : name ≠ c.objectVariable := fun heq => freeName_notMem "cto" _ (heq ▸ hname)
  simp [ConstructorCode.locals, hreceiver, hruntime, harena, hobject]

/-- Hygiene of constructors.  What the bodies of the factory and the initializer mention is package-level names and four
others, so they are hygienic exactly if no parameter has the name of such a declaration and no type parameter has one of
the other names; the analysis sees to it that no parameter has. -/
theorem exists_hygienic_iff {file : DeclFile} (h : ofFile settings file = .ok a) (hclean : a.findings = []) :
    ∃ code, a.fileCode settings = .ok code ∧ ∀ d ∈ file.meanings, ∃ asc, a.forest.ascending d.name = .ok asc ∧
      constructionNames asc d.name ⊆ code.packageNames ∧
      ∃ part ∈ code.meanings, (∀ c ∈ code.meanings, c.handle.meaning = d.name ↔ c = part) ∧
        Signature.parse (Profile.constructorDecl d).params = .ok part.constructors.profile.ctor.params ∧
        parseTypeParams (Profile.constructorDecl d).typeParams = .ok part.constructors.profile.ctor.typeParams ∧
        (∀ name ∈ part.constructors.references, ∃ l ∈ part.constructors.newLines ++ part.constructors.initLines,
          name <:+: l.text) ∧
        (∀ name, name ∈ part.constructors.references ↔
          name ∈ constructionNames asc d.name ∨ name ∈ part.constructors.locals) ∧
        (part.constructors.Hygienic ↔ (∀ name ∈ part.constructors.parameters, name ∉ constructionNames asc d.name) ∧
          ∀ name ∈ part.constructors.profile.ctor.typeParams, name ∉ part.constructors.locals) := by
  obtain ⟨ha, rfl⟩ := complete_of_ofFile h
  obtain ⟨code, hcode⟩ := ha.exists_fileCode settings
  refine ⟨code, hcode, fun d hd => ?_⟩
  obtain ⟨p, hp, rfl, hasc, root, below, methods, hchain, hpart⟩ := ha.exists_codeOf hclean hcode hd
  have hm : p.name ∈ a.forest.names := ha.name_mem hp
  obtain ⟨hparams, htypeParams⟩ := ha.ctor_clean hclean hp
  generalize hpc : a.codeOf p root below methods = part at hpart
  have hself : part.constructors.profile = p := by rw [← hpc]; rfl
  have hmeaning : part.handle.meaning = p.decl.name := by rw [← hpc]; rfl
  have hreferences : ∀ name, name ∈ part.constructors.references ↔
      name ∈ constructionNames p.ascending p.name ∨ name ∈ part.constructors.locals := by
    intro name
    rw [← hpc]
    exact mem_references hasc hchain name
  refine ⟨p.ascending, ha.sound.ascending_eq hasc, ha.constructionNames_subset hcode hasc hm, part, hpart,
    hmeaning ▸ ha.part_iff hcode hpart, hself ▸ hparams, hself ▸ htypeParams,
    fun name hname => part.constructors.exists_mentions hname, hreferences, ?_⟩
  constructor
  · intro hhygienic
    refine ⟨fun name hname hmem => hhygienic name hname ((hreferences name).2 (.inl hmem)), fun name hname hmem => ?_⟩
    exact hhygienic name (List.mem_append_right _ hname) ((hreferences name).2 (.inr hmem))
  · rintro ⟨hpackage, hlocal⟩ name hname hmem
    rcases (hreferences name).1 hmem with hmem | hmem
    · exact hpackage name hname hmem
    · rcases List.mem_append.1 hname with hname | hname
      · exact ha.params_notMem_locals hclean (hself ▸ hp) hname hmem
      · exact hlocal name hname hmem

/-- Parameters with the names of the local variables. -/
def disguised : DeclFile :=
  let constructor : ConstructorDecl :=
    { position := ⟨2, 2⟩, typeParams := "T any", params := "arena T, cto int", superArgs := none, body := [] }
  { name := "disguised.mt"
    meanings := [{ position := ⟨1, 1⟩, name := "A", parent := [], parentPosition := ⟨0, 0⟩, doc := [], fields := []
                   constructors := [constructor], methods := [] }] }

theorem hygienic_disguised : ∃ a code part, @ofFile .english {} disguised = .ok a ∧ a.findings = [] ∧
    a.fileCode {} = .ok code ∧ part ∈ code.meanings ∧ part.constructors.Hygienic := by
  obtain ⟨a, ha, hclean⟩ := exists_clean (by decide +kernel : @cleanInOrder .english {} disguised)
  obtain ⟨code, hcode, hhygienic⟩ := exists_hygienic_iff ha hclean
  obtain ⟨d, hd, hname, hparams, htypeParams⟩ : ∃ d ∈ disguised.meanings, d.name = "A" ∧
      (Signature.parse (Profile.constructorDecl d).params).toOption.map (·.names) =
        some [Text.ofString "arena", Text.ofString "cto"] ∧
      (parseTypeParams (Profile.constructorDecl d).typeParams).toOption = some [Text.ofString "T"] := by decide +kernel
  obtain ⟨asc, hasc, -, part, hpart, -, hparse, hparse', -, -, hiff⟩ := hhygienic d hd
  have hone : a.forest.ascending "A" = .ok ["A"] := by
    rw [forest_of_ofFile ha]
    decide +kernel
  rw [hname, hone] at hasc
  obtain rfl := Except.ok.inj hasc
  rw [hparse] at hparams
  rw [hparse'] at htypeParams
  have hnames : part.constructors.profile.ctor.params.names = _ := Option.some.inj hparams
  have htypes : part.constructors.profile.ctor.typeParams = _ := Option.some.inj htypeParams
  rw [hname, ConstructorCode.parameters, ConstructorCode.locals, ConstructorCode.arenaVariable,
    ConstructorCode.objectVariable, hnames, htypes] at hiff
  exact ⟨a, code, part, ha, hclean, hcode, hpart, hiff.2 ⟨by decide +kernel, by decide +kernel⟩⟩

/-- A parameter with the name of the parent's initializer. -/
def takenOver : DeclFile :=
  let meaning (line : Nat) (name parent params : Text) (superArgs : Option Text) (body : Text) : MeaningDecl :=
    { position := ⟨line, 1⟩, name, parent, parentPosition := if parent.isEmpty then ⟨0, 0⟩ else ⟨line, 12⟩, doc := []
      fields := [], methods := []
      constructors := [{ position := ⟨line + 1, 2⟩, typeParams := [], params, superArgs, body }] }
  { name := "a.mt"
    meanings := [meaning 1 "A" [] [] none "println(\"A\")", meaning 4 "B" "A" "initA func(A)" (some []) []] }

theorem hygienic_fails_takenOver : ∃ a code part, @ofFile .english {} takenOver = .ok a ∧ a.findings = [] ∧
    a.fileCode {} = .ok code ∧ part ∈ code.meanings ∧ initName "A" ∈ part.constructors.profile.ctor.params.names ∧
    initName "A" ∈ part.constructors.references ∧ ¬ part.constructors.Hygienic := by
  obtain ⟨a, hfile, hclean⟩ := exists_clean (by decide +kernel : @cleanInOrder .english {} takenOver)
  obtain ⟨ha, hdecls⟩ := complete_of_ofFile hfile
  obtain ⟨code, hcode⟩ := ha.exists_fileCode {}
  obtain ⟨d, hd, hname, hparams⟩ : ∃ d ∈ takenOver.meanings, d.name = "B" ∧
      (Signature.parse (Profile.constructorDecl d).params).toOption.map (·.names) = some [initName "A"] := by
    decide +kernel
  rw [← hdecls] at hd
  obtain ⟨p, hp, rfl, hasc, root, below, methods, hchain, hpart⟩ := ha.exists_codeOf hclean hcode hd
  have htwo : a.forest.ascending "B" = .ok ["A", "B"] := by
    rw [forest_of_ofFile hfile]
    decide +kernel
  have hascending : p.ascending = [Text.ofString "A", Text.ofString "B"] := by
    have hself := ha.sound.ascending_eq hasc
    rw [show p.name = Text.ofString "B" from hname, htwo] at hself
    exact (Except.ok.inj hself).symm
  have hparam : initName "A" ∈ p.ctor.params.names := by
    rw [(ha.ctor_clean hclean hp).1] at hparams
    have hnames : p.ctor.params.names = [initName "A"] := Option.some.inj hparams
    rw [hnames]
    exact List.mem_singleton_self _
  have hreference : initName "A" ∈ (a.codeOf p root below methods).constructors.references := by
    refine (mem_references hasc hchain _).2 (.inl ?_)
    rw [hascending]
    exact List.mem_append_right _ (List.mem_singleton_self _)
  exact ⟨a, code, _, hfile, hclean, hcode, hpart, hparam, hreference,
    fun hhygienic => hhygienic _ (List.mem_append_left _ hparam) hreference⟩

end Analysis

end MeaningForest

import MeaningForest.Proofs.Captured
import MeaningForest.Proofs.Documents
import MeaningForest.Proofs.Placement

/-!
# Two forms of declaration files

A declaration file can be written as source text or as a document.  What is read from a source has everything that a
document must have, and its fragments are trimmed already; so the document that holds the same texts is read as the same
file, but for places (`DeclFile.Filled`, `checkFile_of_filled`).  Places do not matter for what follows: files that
differ in nothing else have the same findings, the same code and the same compiled text
(`DeclFile.readDocument_agrees`).
-/

namespace MeaningForest

open Text DocumentReader

variable {lang : Language}

/-! ### What the check of a document leaves as it is -/

/-- A field has what is required, and its texts are trimmed. -/
structure FieldDecl.Filled (d : FieldDecl) : Prop where
  name : d.name ≠ []
  typed : d.type ≠ []
  type : IsTrimmed d.type
  default : IsTrimmed d.default

structure MethodDecl.Filled (d : MethodDecl) : Prop where
  name : d.name ≠ []
  doc : IsTrimmed d.doc
  typeParams : IsTrimmed d.typeParams
  params : IsTrimmed d.params
  results : IsTrimmed d.results
  body : IsTrimmed d.body

structure MeaningDecl.Filled (d : MeaningDecl) : Prop where
  name : d.name ≠ []
  doc : IsTrimmed d.doc
  fields : ∀ f ∈ d.fields, f.Filled
  constructors : ∀ c ∈ d.constructors, c.Captured
  methods : ∀ f ∈ d.methods, f.Filled

structure DeclFile.Filled (f : DeclFile) : Prop where
  imports : ∀ i ∈ f.imports, i.path ≠ []
  meanings : ∀ d ∈ f.meanings, d.Filled

namespace DocumentReader

variable {α : Type}

/-- If every entry is kept as it is, so is the list. -/
theorem checkAll_of_kept {check : Nat → α → Check (Option α)} {l : List α}
    (h : ∀ i, ∀ a ∈ l, check i a = pure (some a)) : checkAll check l = pure l := by
  have hmap : ∀ (l : List α) (k : Nat), (∀ i, ∀ a ∈ l, check i a = pure (some a)) →
      (l.zipIdx k).mapM (fun p => check p.2 p.1) = pure (l.map some) := by
    intro l
    induction l with
    | nil => exact fun _ _ => rfl
    | cons a l ih =>
      intro k h
      have htail := ih (k + 1) fun i b hb => h i b (List.mem_cons_of_mem _ hb)
      rw [List.zipIdx_cons, List.mapM_cons, htail]
      dsimp only
      rw [h k a (List.mem_cons_self ..)]
      rfl
  change (l.zipIdx.mapM fun p => check p.2 p.1) >>= (fun kept => pure (kept.filterMap id)) = pure l
  rw [hmap l 0 h, pure_bind, List.filterMap_map, Function.id_comp, List.filterMap_some]

theorem checkImport_of_path {d : ImportDecl} (h : d.path ≠ []) (i : Nat) : checkImport i d = pure (some d) :=
  if_neg (by simpa using h)

theorem checkField_of_filled {d : FieldDecl} (h : d.Filled) (owner : Text) (i : Nat) :
    checkField owner i d = pure (some d) := by
  have hblank : ¬ d.type.isBlank := fun hb => h.typed (h.type.isBlank_iff.1 hb)
  rw [checkField, if_neg (by simpa using h.name), if_neg hblank, h.type, h.default]

theorem checkMethod_of_filled {d : MethodDecl} (h : d.Filled) (owner : Text) (i : Nat) :
    checkMethod owner i d = pure (some d) := by
  rw [checkMethod, if_neg (by simpa using h.name), trimMethod, h.doc, h.typeParams, h.params, h.results, h.body]

theorem trimConstructor_of_captured {d : ConstructorDecl} (h : d.Captured) : trimConstructor d = d := by
  have hsuper : d.superArgs.map trimSpace = d.superArgs := by
    cases hargs : d.superArgs with
    | none => rfl
    | some args => exact congrArg some (h.superArgs args hargs)
  rw [trimConstructor, h.typeParams, h.params, hsuper, h.body]

theorem checkMeaning_of_filled {d : MeaningDecl} (h : d.Filled) (i : Nat) : checkMeaning i d = pure (some d) := by
  have hfields := checkAll_of_kept fun i f hf => @checkField_of_filled lang _ (h.fields f hf) d.name i
  have hmethods := checkAll_of_kept fun i f hf => @checkMethod_of_filled lang _ (h.methods f hf) d.name i
  have hconstructors : d.constructors.map trimConstructor = d.constructors :=
    (List.map_congr_left fun c hc => trimConstructor_of_captured (h.constructors c hc)).trans (List.map_id _)
  rw [checkMeaning, if_neg (by simpa using h.name), hfields, pure_bind, hmethods, pure_bind, hconstructors, h.doc]

theorem checkFile_of_filled {f : DeclFile} (h : f.Filled) : checkFile f = pure f := by
  have himports := checkAll_of_kept fun i d hd => @checkImport_of_path lang _ (h.imports d hd) i
  have hmeanings := checkAll_of_kept fun i d hd => @checkMeaning_of_filled lang _ (h.meanings d hd) i
  rw [checkFile, himports, pure_bind, hmeanings, pure_bind]

end DocumentReader

/-! ### What is read from a source -/

theorem FieldDecl.Captured.filled {d : FieldDecl} (h : d.Captured) : d.Filled :=
  ⟨h.name.nonempty, h.typed, h.type, h.default⟩

theorem MethodDecl.Captured.filled {d : MethodDecl} (h : d.Captured) (hdoc : IsTrimmed d.doc) : d.Filled :=
  ⟨h.name.nonempty, hdoc, h.typeParams, h.params, h.results, h.body⟩

theorem DeclFile.Captured.filled {f : DeclFile} (h : f.Captured) (hpaths : ∀ i ∈ f.imports, i.path ≠ [])
    (hdocs : ∀ d ∈ f.meanings, IsTrimmed d.doc ∧ ∀ m ∈ d.methods, IsTrimmed m.doc) : f.Filled := by
  refine ⟨hpaths, fun d hd => ?_⟩
  have hcaptured := h.meanings d hd
  obtain ⟨hdoc, hmethods⟩ := hdocs d hd
  exact ⟨hcaptured.name.nonempty, hdoc, fun f hf => (hcaptured.fields f hf).filled, hcaptured.constructors,
    fun m hm => (hcaptured.methods m hm).filled (hmethods m hm)⟩

theorem FieldDecl.filled_unplaced {d : FieldDecl} : d.unplaced.Filled ↔ d.Filled :=
  ⟨fun h => ⟨h.name, h.typed, h.type, h.default⟩, fun h => ⟨h.name, h.typed, h.type, h.default⟩⟩

theorem ConstructorDecl.captured_unplaced {d : ConstructorDecl} : d.unplaced.Captured ↔ d.Captured :=
  ⟨fun h => ⟨h.typeParams, h.params, h.superArgs, h.body⟩, fun h => ⟨h.typeParams, h.params, h.superArgs, h.body⟩⟩

theorem MethodDecl.filled_unplaced {d : MethodDecl} : d.unplaced.Filled ↔ d.Filled :=
  ⟨fun h => ⟨h.name, h.doc, h.typeParams, h.params, h.results, h.body⟩,
    fun h => ⟨h.name, h.doc, h.typeParams, h.params, h.results, h.body⟩⟩

theorem MeaningDecl.filled_unplaced {d : MeaningDecl} : d.unplaced.Filled ↔ d.Filled := by
  have hfields : (∀ f ∈ d.unplaced.fields, f.Filled) ↔ ∀ f ∈ d.fields, f.Filled := by
    simp only [unplaced, List.forall_mem_map, FieldDecl.filled_unplaced]
  have hconstructors : (∀ c ∈ d.unplaced.constructors, c.Captured) ↔ ∀ c ∈ d.constructors, c.Captured := by
    simp only [unplaced, List.forall_mem_map, ConstructorDecl.captured_unplaced]
  have hmethods : (∀ f ∈ d.unplaced.methods, f.Filled) ↔ ∀ f ∈ d.methods, f.Filled := by
    simp only [unplaced, List.forall_mem_map, MethodDecl.filled_unplaced]
  exact ⟨fun h => ⟨h.name, h.doc, hfields.1 h.fields, hconstructors.1 h.constructors, hmethods.1 h.methods⟩,
    fun h => ⟨h.name, h.doc, hfields.2 h.fields, hconstructors.2 h.constructors, hmethods.2 h.methods⟩⟩

theorem DeclFile.filled_unplaced {f : DeclFile} : f.unplaced.Filled ↔ f.Filled := by
  have himports : (∀ i ∈ f.unplaced.imports, i.path ≠ []) ↔ ∀ i ∈ f.imports, i.path ≠ [] := by
    simp only [unplaced, List.forall_mem_map]
    rfl
  have hmeanings : (∀ d ∈ f.unplaced.meanings, d.Filled) ↔ ∀ d ∈ f.meanings, d.Filled := by
    simp only [unplaced, List.forall_mem_map, MeaningDecl.filled_unplaced]
  exact ⟨fun h => ⟨himports.1 h.imports, hmeanings.1 h.meanings⟩,
    fun h => ⟨himports.2 h.imports, hmeanings.2 h.meanings⟩⟩

/-! ### What documents are read as -/

namespace DeclFile

/-- The texts in a document do not tell the name of the file. -/
theorem Written.renamed {f : DeclFile} {n : Yaml.Node} (h : f.Written n) (name : Text) :
    ({ f with name } : DeclFile).Written n := by
  obtain ⟨tag, entries, place, hn, htag, hnodup, hentries, hparts⟩ := h
  refine ⟨tag, entries, place, hn, htag, hnodup, fun e he => ?_, fun p hp => ?_⟩
  · obtain ⟨p, hp, hkey, hholds⟩ := hentries e he
    rcases List.mem_cons.1 hp with rfl | hp
    · exact hholds.elim
    · exact ⟨p, List.mem_cons_of_mem _ hp, hkey, hholds⟩
  · rcases List.mem_cons.1 hp with rfl | hp
    · exact .inl rfl
    · have hright := hparts p (List.mem_cons_of_mem _ hp)
      simp only [List.mem_cons, List.not_mem_nil, or_false] at hp
      rcases hp with rfl | rfl | rfl | rfl
      all_goals exact hright

/-- A document that holds the texts of a complete file is read as this file, but for places. -/
theorem Written.exists_readDocument {f : DeclFile} {text : Text} {doc : Yaml.Document} (h : f.Written doc.root)
    (hparse : Yaml.parse? text = some (some doc)) (hfilled : f.Filled) :
    ∃ g, readDocument f.name text = .ok ⟨g, []⟩ ∧ g.unplaced = f.unplaced := by
  obtain ⟨g, s, hdecode, hnotes, hg⟩ := h.exists_decode
  have hgfilled : g.Filled := filled_unplaced.1 (hg ▸ filled_unplaced.2 hfilled)
  refine ⟨g, ?_, hg⟩
  delta readDocument
  rw [hparse]
  dsimp only
  rw [hdecode]
  dsimp only
  rw [hnotes, checkFile_of_filled hgfilled]
  rfl

/-- A file that is read without problems, with at most one constructor in each meaning, paths for all imports and
trimmed documentation, can be written as a document.  Every document that holds its texts is read without problems as
the same file, but for places and the name that it is read under; so it is compiled like a source of this name, and its
code has another name in the head.  Whatever else holds the texts of the file is kept by the check of documents too, and
any files that differ in nothing but places are interchangeable. -/
theorem readDocument_agrees {name source : Text} {f : DeclFile} (hread : DeclFile.read name source = .ok ⟨f, []⟩)
    (hone : ∀ d ∈ f.meanings, d.constructors.length ≤ 1) (hpaths : ∀ i ∈ f.imports, i.path ≠ [])
    (hdocs : ∀ d ∈ f.meanings, IsTrimmed d.doc ∧ ∀ m ∈ d.methods, IsTrimmed m.doc) :
    (∃ n, f.Written n) ∧
    (∀ path text doc, Yaml.parse? text = some (some doc) → f.Written doc.root →
      ∃ g, readDocument path text = .ok ⟨g, []⟩ ∧ g.unplaced = { f.unplaced with name := path } ∧
        (∀ settings, Interchangeable settings { f with name := path } g) ∧
        ∀ settings, ∃ a b c d, Analysis.ofFile settings f = .ok a ∧ a.fileCode settings = .ok c ∧
          Analysis.ofFile settings g = .ok b ∧ b.fileCode settings = .ok d ∧
          d.text = ({ c with source := path } : Code.FileCode).text) ∧
    (∀ (g : DeclFile) problems, g.unplaced = f.unplaced → checkFile g problems = (g, problems)) ∧
    ∀ (settings : Settings) (g h : DeclFile), g.unplaced = h.unplaced → Interchangeable settings g h := by
  have hfilled : f.Filled := (captured_of_read hread).filled hpaths hdocs
  refine ⟨exists_written hone, fun path text doc hparse hwritten => ?_, fun g problems hg => ?_,
    fun settings g h => interchangeable_of_unplaced settings⟩
  · have hrenamed : ({ f with name := path } : DeclFile).Filled := ⟨hfilled.imports, hfilled.meanings⟩
    obtain ⟨g, hread', hg⟩ := (hwritten.renamed path).exists_readDocument hparse hrenamed
    exact ⟨g, hread', hg, fun settings => interchangeable_of_unplaced settings hg.symm,
      fun settings => exists_code_of_renamed settings hg⟩
  · rw [checkFile_of_filled (filled_unplaced.1 (hg ▸ filled_unplaced.2 hfilled))]
    rfl

/-- A meaning and one below it, as a source. -/
def aviary : Text :=
  "meaning Bird \x7b\n  let Wings: int = 2;\n  constructor(k int) \x7b\x7d\n  fn Fly() int \x7b return 1 \x7d\n\x7d\n"
    ++
  "meaning Owl: Bird \x7b\n  constructor(k int) \x7b super(k) \x7d\n\x7d\n"

theorem readDocument_agrees_aviary : ∃ f, @DeclFile.read .english "zoo.mt" aviary = .ok ⟨f, []⟩ ∧
    f.meanings.length = 2 ∧ f.unplaced ≠ f ∧ (∃ n, f.Written n) ∧ @checkFile .english f.unplaced [] = (f.unplaced, []) ∧
    @Interchangeable .english {} f.unplaced f := by
  obtain ⟨⟨f, problems⟩, hmem, rfl, hlength, hne, hone, hpaths, hdocs, hidem⟩ :
      ∃ r ∈ (@DeclFile.read .english "zoo.mt" aviary).toOption, r.problems = [] ∧ r.file.meanings.length = 2 ∧
        r.file.unplaced ≠ r.file ∧ (∀ d ∈ r.file.meanings, d.constructors.length ≤ 1) ∧
        (∀ i ∈ r.file.imports, i.path ≠ []) ∧
        (∀ d ∈ r.file.meanings, trimSpace d.doc = d.doc ∧ ∀ m ∈ d.methods, trimSpace m.doc = m.doc) ∧
        r.file.unplaced.unplaced = r.file.unplaced := by decide +kernel
  have hread := read_of_mem hmem
  obtain ⟨hwritten, -, hcheck, hsame⟩ := readDocument_agrees hread hone hpaths hdocs
  exact ⟨f, hread, hlength, hne, hwritten, hcheck _ _ hidem, hsame _ _ _ hidem⟩

example : (@readDocument .english "zoo.mt"
      "meanings: [\x7bname: Bird, fields: [\x7bname: Wings, type: int\x7d]\x7d]").map
      (fun r => (r.problems, r.file.unplaced)) =
    (@DeclFile.read .english "zoo.mt" "meaning Bird \x7b let Wings: int; \x7d").map
      fun r => (r.problems, r.file.unplaced) := by
  decide +kernel

end DeclFile

end MeaningForest

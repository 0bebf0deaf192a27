import MeaningForest.Compilation.Basic
import MeaningForest.Proofs.Generation
import MeaningForest.Proofs.Unplaced

/-!
# Places do not matter

The analysis of declarations without places is their analysis without places (`Analysis.ofFile_unplaced`), and so is
the code that is generated from it (`Analysis.fileCode_unplaced`).  No place is written into the code
(`FileCode.text_unplaced`).
-/

namespace MeaningForest

open Code

variable {lang : Language}

/-! ### Analyses -/

namespace Analysis

/-- An analysis without the places of declarations and findings. -/
def unplaced (a : Analysis) : Analysis :=
  { a with
    file := a.file.unplaced
    forest := a.forest.unplaced
    profiles := a.profiles.map Profile.unplaced
    findings := a.findings.map Located.unplaced }

theorem find_unplaced (ps : List Profile) (m : Text) :
    find (ps.map Profile.unplaced) m = (find ps m).map Profile.unplaced := by
  have hfind : (ps.map Profile.unplaced).find? (·.name == m) = (ps.find? (·.name == m)).map Profile.unplaced :=
    List.find?_map
  rw [find, find, hfind]
  cases ps.find? (·.name == m) <;> rfl

theorem step_unplaced (f : Forest) (made : List Profile) (n : ForestNode × List Text) :
    step f.unplaced (made.map Profile.unplaced) (n.map ForestNode.unplaced id) =
      (step f made n).map (List.map Profile.unplaced) := by
  have habove := mapM_map_of_step (f := find made) (h := id) (find_unplaced made) n.2.dropLast
  rw [List.map_id] at habove
  have hname : (n.map ForestNode.unplaced id).1.name = n.1.name := rfl
  rw [step, step, hname, Forest.submeanings_unplaced, Prod.map_snd, id_eq, habove]
  cases n.2.dropLast.mapM (find made) with
  | error e => rfl
  | ok above =>
    refine congrArg Except.ok ?_
    rw [List.map_append, List.map_singleton, ← Profile.ofDecl_unplaced]
    rfl

theorem run_unplaced (f : Forest) (ranked : List (ForestNode × List Text)) :
    (ranked.map (Prod.map ForestNode.unplaced id)).foldlM (step f.unplaced) [] =
      (ranked.foldlM (step f) []).map (List.map Profile.unplaced) := by
  rw [List.foldlM_map]
  exact foldlM_map (g := List.map Profile.unplaced) (fun made n => step_unplaced f made n) ranked []

/-- The analysis without places agrees with that of the declarations without places, up to the place of the one
finding that has a place of its own. -/
theorem ofFile_unplaced (settings : Settings) (f : DeclFile) :
    ∃ a found, ofFile settings f = .ok a ∧ ofFile settings f.unplaced = .ok { a.unplaced with findings := found } ∧
      found.map Located.unplaced = a.findings.map Located.unplaced := by
  obtain ⟨ranked, profiles, hranked, hprofiles, -⟩ :=
    exists_profiles (Forest.ofDecls_sound (arenaOf settings f) f.meanings)
  have hdecls : Forest.ofDecls (arenaOf settings f.unplaced) f.unplaced.meanings = _ :=
    Forest.ofDecls_unplaced (arenaOf settings f) f.meanings
  have hranked' : (Forest.ofDecls (arenaOf settings f.unplaced) f.unplaced.meanings).1.byDepth =
      .ok (ranked.map (Prod.map ForestNode.unplaced id)) := by
    rw [hdecls, Prod.map_fst, Forest.byDepth_unplaced, hranked]
    rfl
  have hprofiles' : (ranked.map (Prod.map ForestNode.unplaced id)).foldlM
      (step (Forest.ofDecls (arenaOf settings f.unplaced) f.unplaced.meanings).1) [] =
        .ok (profiles.map Profile.unplaced) := by
    rw [hdecls, Prod.map_fst, run_unplaced, hprofiles]
    rfl
  refine ⟨assemble settings f profiles, (assemble settings f.unplaced (profiles.map Profile.unplaced)).findings,
    ofFile_eq_ok hranked hprofiles, (ofFile_eq_ok hranked' hprofiles').trans (congrArg Except.ok ?_), ?_⟩
  · exact (Analysis.mk.injEq ..).mpr ⟨rfl, rfl, rfl, congrArg Prod.fst hdecls, rfl, rfl⟩
  · have hprofile : (profiles.map Profile.unplaced).flatMap (·.findings) =
        (profiles.flatMap (·.findings)).map Located.unplaced := by
      rw [List.flatMap_map, List.map_flatMap]
      rfl
    have hidem : Located.unplaced ∘ Located.unplaced = (Located.unplaced : Finding → Finding) := rfl
    simp only [assemble, hdecls, Prod.map, hprofile, List.map_append, List.map_map, hidem, Forest.nameFindings_unplaced]
    rfl

/-- Files that differ in nothing but places have the same analysis but for places. -/
theorem exists_ofFile_of_unplaced (settings : Settings) {f g : DeclFile} (h : f.unplaced = g.unplaced) :
    ∃ a b, ofFile settings f = .ok a ∧ ofFile settings g = .ok b ∧ a.unplaced = b.unplaced := by
  obtain ⟨a, found, ha, ha', hfound⟩ := ofFile_unplaced settings f
  obtain ⟨b, found', hb, hb', hfound'⟩ := ofFile_unplaced settings g
  refine ⟨a, b, ha, hb, ?_⟩
  have hsame := ha'.symm.trans ((congrArg (ofFile settings) h).trans hb')
  obtain ⟨hfile, hpackage, harena, hforest, hprofiles, rfl⟩ := (Analysis.mk.injEq ..).mp (Except.ok.inj hsame)
  exact (Analysis.mk.injEq ..).mpr ⟨hfile, hpackage, harena, hforest, hprofiles, hfound.symm.trans hfound'⟩

variable (a : Analysis)

/-! ### Code -/

theorem overridesOf_unplaced (owner method : Text) :
    a.unplaced.overridesOf owner method = (a.overridesOf owner method).map Override.unplaced := by
  simp only [overridesOf, unplaced, List.flatMap_map, List.map_flatMap, Profile.unplaced, List.filter_map]
  rfl

theorem overrideTree_unplaced (owner method : Text) :
    a.unplaced.overrideTree owner method = a.overrideTree owner method := by
  rw [overrideTree, overrideTree, overridesOf_unplaced, List.foldlM_map]
  rfl

theorem declared_unplaced : a.unplaced.declared = a.declared.map (List.map Profile.unplaced) := by
  have h := mapM_map_of_step (f := a.profile) (h := id) (find_unplaced a.profiles) a.forest.names
  rw [List.map_id] at h
  rw [declared, declared, ← h, unplaced, Forest.names_unplaced]
  rfl

end Analysis

def Code.MethodCode.unplaced (c : MethodCode) : MethodCode := { c with decl := c.decl.unplaced }

def Code.ConstructorCode.unplaced (c : ConstructorCode) : ConstructorCode := { c with profile := c.profile.unplaced }

def Code.MeaningCode.unplaced (c : MeaningCode) : MeaningCode :=
  { c with
    constructors := c.constructors.unplaced
    methods := c.methods.map MethodCode.unplaced
    overrides := c.overrides.map MethodCode.unplaced }

/-- The code of a file without the places of the declarations it is made from. -/
def Code.FileCode.unplaced (c : FileCode) : FileCode :=
  { c with imports := c.imports.map ImportDecl.unplaced, meanings := c.meanings.map MeaningCode.unplaced }

namespace Analysis

variable (settings : Settings) (a : Analysis) (p : Profile)

theorem methodCode_unplaced (f : Method) :
    a.unplaced.methodCode p.unplaced f.unplaced = (a.methodCode p f).map MethodCode.unplaced := by
  have hname : p.unplaced.name = p.name ∧ f.unplaced.name = f.name := ⟨rfl, rfl⟩
  rw [methodCode, methodCode, overrideTree_unplaced, hname.1, hname.2]
  cases a.overrideTree p.name f.name <;> rfl

theorem meaningCode_unplaced : a.unplaced.meaningCode p.unplaced = (a.meaningCode p).map MeaningCode.unplaced := by
  have hchain : p.unplaced.ascending.mapM a.unplaced.profile = _ :=
    (congrArg (List.mapM _) (List.map_id _).symm).trans
      (mapM_map_of_step (f := a.profile) (h := id) (find_unplaced a.profiles) p.ascending)
  have hmethods : p.unplaced.methods.mapM (a.unplaced.methodCode p.unplaced) = _ :=
    mapM_map_of_step (methodCode_unplaced a p) p.methods
  rw [meaningCode, meaningCode, hchain]
  cases p.ascending.mapM a.profile with
  | error e => rfl
  | ok chain =>
    cases chain with
    | nil => rfl
    | cons root below =>
      have hvariant : cellPath p.unplaced root.unplaced.name "variant" = cellPath p root.name "variant" := rfl
      simp only [Except.map, List.map_cons, bind, Except.bind, hvariant, hmethods]
      cases cellPath p root.name "variant" with
      | error e => rfl
      | ok variant =>
        cases p.methods.mapM (a.methodCode p) with
        | error e => rfl
        | ok methods =>
          have hoverrides : p.unplaced.overrides.map (overrideCode p.unplaced) =
              (p.overrides.map (overrideCode p)).map MethodCode.unplaced := by
            simp only [Profile.unplaced, List.map_map]
            rfl
          have hbelow : (below.map Profile.unplaced).map (·.name) = below.map (·.name) ∧
              (below.map Profile.unplaced).map (fun q => (q.name, q.fields)) =
                below.map fun q => (q.name, q.fields) := by
            simp only [List.map_map]
            exact ⟨rfl, rfl⟩
          simp only [hoverrides, hbelow]
          rfl

theorem fileCode_unplaced : a.unplaced.fileCode settings = (a.fileCode settings).map FileCode.unplaced := by
  rw [fileCode, fileCode, declared_unplaced]
  cases a.declared with
  | error e => rfl
  | ok ps =>
    have hmeanings := mapM_map_of_step (meaningCode_unplaced a) ps
    simp only [Except.map, bind, Except.bind, hmeanings]
    cases ps.mapM a.meaningCode <;> rfl

end Analysis

namespace Code

theorem MeaningCode.lines_unplaced (c : MeaningCode) : c.unplaced.lines = c.lines := by
  simp only [lines, unplaced, List.flatMap_map]
  rfl

namespace FileCode

variable (c : FileCode)

theorem importLines_unplaced : c.unplaced.importLines = c.importLines := by
  simp only [importLines, unplaced, List.map_map]
  rfl

theorem restLines_unplaced : c.unplaced.restLines = c.restLines := by
  simp only [restLines, unplaced, List.flatMap_map, MeaningCode.lines_unplaced]

theorem text_unplaced : c.unplaced.text = c.text := by
  rw [text, text, lines, lines, importLines_unplaced, restLines_unplaced]
  rfl

end FileCode

end Code

/-! ### Two files -/

def Diagnostic.unplaced (d : Diagnostic) : Diagnostic := { d with line := 0, column := 0 }

namespace Analysis

theorem diagnostics_unplaced (a : Analysis) :
    a.unplaced.diagnostics = a.diagnostics.map Diagnostic.unplaced := by
  simp only [diagnostics, unplaced, List.map_map]
  rfl

theorem fileCode_eq_of_unplaced {settings : Settings} {a b : Analysis} {c d : FileCode} (h : a.unplaced = b.unplaced)
    (hc : a.fileCode settings = .ok c) (hd : b.fileCode settings = .ok d) : c.unplaced = d.unplaced := by
  have hcode := congrArg (fileCode settings) h
  rw [fileCode_unplaced, fileCode_unplaced, hc, hd] at hcode
  exact Except.ok.inj hcode

/-- The name of a file is only copied. -/
theorem ofFile_renamed (settings : Settings) (f : DeclFile) (name : Text) :
    ofFile settings { f with name } = (ofFile settings f).map fun a => { a with file := { a.file with name } } := by
  obtain ⟨ranked, profiles, hranked, hprofiles, -⟩ :=
    exists_profiles (Forest.ofDecls_sound (arenaOf settings f) f.meanings)
  have hrenamed : ofFile settings { f with name } = .ok (assemble settings { f with name } profiles) :=
    ofFile_eq_ok hranked hprofiles
  rw [hrenamed, ofFile_eq_ok hranked hprofiles]
  rfl

theorem fileCode_renamed (settings : Settings) (a : Analysis) (name : Text) :
    ({ a with file := { a.file with name } } : Analysis).fileCode settings =
      (a.fileCode settings).map fun c => { c with source := name } := by
  have hdeclared : ({ a with file := { a.file with name } } : Analysis).declared = a.declared := rfl
  have hmeaning : ({ a with file := { a.file with name } } : Analysis).meaningCode = a.meaningCode := rfl
  rw [fileCode, fileCode, hdeclared, hmeaning]
  cases a.declared with
  | error e => rfl
  | ok ps =>
    simp only [Except.map, bind, Except.bind]
    cases ps.mapM a.meaningCode <;> rfl

end Analysis

namespace DeclFile

theorem compile_eq (format : Formatter) {settings : Settings} {f : DeclFile} {a : Analysis} {c : FileCode}
    (ha : Analysis.ofFile settings f = .ok a) (hc : a.fileCode settings = .ok c) :
    f.compile format settings = .ok (if a.findings.isEmpty then
      (format settings.fixImports c.text).mapError (.broken f.name c.text) else .error (.faulty a)) := by
  have hgenerate : f.generate settings = .ok (if a.findings.isEmpty then .ok c else .error (.faulty a)) := by
    rw [generate, ha]
    show Analysis.generate settings a = _
    rw [Analysis.generate, hc]
    split <;> rfl
  rw [compile, hgenerate]
  simp only [bind, Except.bind]
  cases a.findings.isEmpty with
  | false => rfl
  | true =>
    simp only [↓reduceIte]
    cases format settings.fixImports c.text <;> rfl

/-- Two files have the same diagnostics but for places and the same code, and whatever the formatter, they are compiled
to the same text or both rejected. -/
def Interchangeable [Language] (settings : Settings) (f g : DeclFile) : Prop :=
  ∃ a b c d, Analysis.ofFile settings f = .ok a ∧ Analysis.ofFile settings g = .ok b ∧
    a.diagnostics.map Diagnostic.unplaced = b.diagnostics.map Diagnostic.unplaced ∧
    a.fileCode settings = .ok c ∧ b.fileCode settings = .ok d ∧ c.text = d.text ∧
    ∀ format, ∃ x y, f.compile format settings = .ok x ∧ g.compile format settings = .ok y ∧ x.toOption = y.toOption

/-- Files that differ in nothing but places are interchangeable. -/
theorem interchangeable_of_unplaced (settings : Settings) {f g : DeclFile} (h : f.unplaced = g.unplaced) :
    Interchangeable settings f g := by
  obtain ⟨a, b, ha, hb, hab⟩ := Analysis.exists_ofFile_of_unplaced settings h
  obtain ⟨c, hc⟩ := (Analysis.complete_of_ofFile ha).1.exists_fileCode settings
  obtain ⟨d, hd⟩ := (Analysis.complete_of_ofFile hb).1.exists_fileCode settings
  have hcd := Analysis.fileCode_eq_of_unplaced hab hc hd
  have htext : c.text = d.text := by rw [← FileCode.text_unplaced, hcd, FileCode.text_unplaced]
  have hclean : a.findings.isEmpty = b.findings.isEmpty := by
    have hfindings : a.findings.map Located.unplaced = b.findings.map Located.unplaced := congrArg Analysis.findings hab
    rw [← List.isEmpty_map (f := Located.unplaced), hfindings, List.isEmpty_map]
  refine ⟨a, b, c, d, ha, hb, ?_, hc, hd, htext, fun format =>
    ⟨_, _, compile_eq format ha hc, compile_eq format hb hd, ?_⟩⟩
  · rw [← Analysis.diagnostics_unplaced, hab, Analysis.diagnostics_unplaced]
  · rw [hclean, htext]
    cases b.findings.isEmpty with
    | false => rfl
    | true => cases format settings.fixImports d.text <;> rfl

/-- Files that also differ in their names have the same code but for the name in its head. -/
theorem exists_code_of_renamed (settings : Settings) {f g : DeclFile} {name : Text}
    (h : g.unplaced = { f.unplaced with name }) :
    ∃ a b c d, Analysis.ofFile settings f = .ok a ∧ a.fileCode settings = .ok c ∧ Analysis.ofFile settings g = .ok b ∧
      b.fileCode settings = .ok d ∧ d.text = ({ c with source := name } : FileCode).text := by
  have hrenamed : g.unplaced = ({ f with name } : DeclFile).unplaced := h
  obtain ⟨b, a', d, c', hb, ha', -, hd, hc', htext, -⟩ := interchangeable_of_unplaced settings hrenamed
  obtain ⟨a, ha, -⟩ := Analysis.exists_ofFile settings f
  obtain ⟨c, hc⟩ := (Analysis.complete_of_ofFile ha).1.exists_fileCode settings
  rw [Analysis.ofFile_renamed, ha] at ha'
  rw [← Except.ok.inj ha', Analysis.fileCode_renamed, hc] at hc'
  exact ⟨a, b, c, d, ha, hc, hb, hd, htext.trans (congrArg FileCode.text (Except.ok.inj hc').symm)⟩

end DeclFile

end MeaningForest

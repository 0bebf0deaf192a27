import MeaningForest.Host.Format
import MeaningForest.Project.Run
import MeaningForest.Proofs.FileTrees
import Mathlib.Data.List.Dedup

/-!
# What a build leaves

A build that ends without an error has written a file for each declaration file (`Run.buildFile_spec`), and what was
written last to a path is there in the end.  Declaration files with one stem, such as `a.mt` and `a.mt.yaml`, are
written to one path, one over the other; files with different stems are written to different places
(`Run.build_writes_stems`).
-/

namespace MeaningForest

open FileTree

/-- Every name in a tree can be an element of a path. -/
def FileTree.Named (t : FileTree) : Prop := ∀ q ∈ t.entries.keys, ∀ e ∈ q, Path.isName e ∧ Path.slash ∉ e

/-! ### Loaded files -/

theorem mapError_eq_ok {ε ε' α : Type} {g : ε → ε'} {x : Except ε α} {a : α} :
    x.mapError g = .ok a ↔ x = .ok a := by
  cases x with
  | error e => exact iff_of_false (by rintro ⟨⟩) (by rintro ⟨⟩)
  | ok b =>
    exact Iff.intro (fun h => congrArg Except.ok (Except.ok.inj h)) fun h => congrArg Except.ok (Except.ok.inj h)

namespace Project

variable {t : FileTree} {p : Project} {input : Text}

theorem named_of_mem_collect (ht : t.Named) {dir : Text} {files : List Text} (h : collect t dir = .ok files) :
    ∀ f ∈ files, Path.Named f := by
  obtain ⟨found, hfound, h⟩ := bind_eq_ok.1 h
  have hmem : ∀ f ∈ files, f ∈ found ∧ Path.isDeclaration f := by
    split at h
    · cases h
    · obtain rfl := Except.ok.inj h
      exact fun f hf => List.mem_filter.1 hf
  intro f hf
  obtain ⟨hfile, hdeclaration⟩ := hmem f hf
  obtain ⟨place, -, hbelow⟩ := bind_eq_ok.1 (mapError_eq_ok.1 hfound)
  obtain rfl := Except.ok.inj hbelow
  obtain ⟨⟨q, content⟩, hq, hcut⟩ := List.mem_filterMap.1 (List.mem_mergeSort.1 hfile)
  obtain ⟨⟨q', entry⟩, he, hentry⟩ := List.mem_filterMap.1 hq
  dsimp only at hcut hentry
  split at hentry
  · obtain ⟨rfl, -⟩ := Prod.mk.inj (Option.some.inj hentry)
    split at hcut
    · obtain rfl := Option.some.inj hcut
      have hnames := fun e (hmem : e ∈ q'.drop place.length) =>
        ht q' (List.mem_map_of_mem he) e (List.mem_of_mem_drop hmem)
      have hne : q'.drop place.length ≠ [] := by
        intro hnil
        rw [hnil] at hdeclaration
        cases hdeclaration
      rw [Path.Named, Path.elements, Text.split_join hne fun e he => (hnames e he).2]
      exact fun e he => (hnames e he).1
    · cases hcut
  · cases hentry

/-- A project has one file, or its files are paths of names. -/
theorem named_of_load (ht : t.Named) (h : load t input = .ok p) :
    (∃ f, p.files = [f]) ∨ ∀ f ∈ p.files, Path.Named f := by
  obtain ⟨⟨root, files⟩, hinputs, h⟩ := bind_eq_ok.1 h
  dsimp only at h
  split at h
  · obtain rfl := Except.ok.inj h
    obtain ⟨entry, -, hinputs⟩ := bind_eq_ok.1 hinputs
    cases entry with
    | directory =>
      obtain ⟨files', hcollect, hpair⟩ := bind_eq_ok.1 hinputs
      obtain ⟨-, rfl⟩ := Prod.mk.inj (Except.ok.inj hpair)
      exact .inr (named_of_mem_collect ht hcollect)
    | file content =>
      obtain ⟨-, rfl⟩ := Prod.mk.inj (Except.ok.inj hinputs)
      exact .inl ⟨_, rfl⟩
  · cases h

end Project

/-! ### One file -/

theorem Diagnostic.countErrors_map {α : Type} (file : Text) (problems : List (Located α)) :
    Diagnostic.countErrors (problems.map (Located.diagnostic file)) = problems.length := by
  rw [countErrors, List.filter_eq_self.2]
  · exact List.length_map _
  · simp [Located.diagnostic]

/-- A file that is not compiled for what it says has diagnostics. -/
theorem countErrors_pos_of_compileFile {t : FileTree} {format : Formatter} {settings : Settings} {path : Text}
    {f : ProjectFault} {lang : Language} (h : compileFile format t settings path = .ok (.error f))
    (hf : f.isDiagnosed) :
    0 < Diagnostic.countErrors f.diagnostics := by
  rw [compileFile] at h
  split at h
  · rename_i e he
    obtain rfl := Except.error.inj (Except.ok.inj h)
    cases hread : t.read path with
    | error cause =>
      rw [readDeclarations, hread] at he
      obtain rfl := Except.error.inj he
      cases hf
    | ok text =>
      rw [readDeclarations, hread] at he
      cases he
  · obtain ⟨result, -, h⟩ := bind_eq_ok.1 h
    rw [ReadResult.accept] at h
    split at h
    · rename_i r hr
      split at hr
      · cases hr
      · rename_i hproblems
        obtain rfl := Except.error.inj hr
        obtain rfl := Except.error.inj (Except.ok.inj h)
        rw [ProjectFault.diagnostics, Rejection.diagnostics, Diagnostic.countErrors_map]
        exact List.length_pos_iff.2 (by simpa using hproblems)
    · obtain ⟨compiled, hcompile, h⟩ := bind_eq_ok.1 h
      obtain ⟨generated, hgenerate, hcompile⟩ := bind_eq_ok.1 hcompile
      cases generated with
      | error rejection =>
        obtain rfl := Except.ok.inj hcompile
        obtain rfl := Except.error.inj (Except.ok.inj h)
        obtain ⟨a, -, hgenerate⟩ := bind_eq_ok.1 hgenerate
        rw [Analysis.generate] at hgenerate
        split at hgenerate
        · obtain ⟨_, -, hgenerate⟩ := bind_eq_ok.1 hgenerate
          cases hgenerate
        · rename_i hfindings
          obtain rfl := Except.error.inj (Except.ok.inj hgenerate)
          rw [ProjectFault.diagnostics, Rejection.diagnostics, Analysis.diagnostics, Diagnostic.countErrors_map]
          exact List.length_pos_iff.2 (by simpa using hfindings)
      | ok code =>
        dsimp only at hcompile
        split at hcompile
        · obtain rfl := Except.ok.inj hcompile
          cases h
        · obtain rfl := Except.ok.inj hcompile
          obtain rfl := Except.error.inj (Except.ok.inj h)
          cases hf

namespace Run

variable {lang : Language} {format : Formatter} {p : Project} {dir file : Text} {r r' : Run}

theorem compile_spec {settings : Settings} {path : Text} {result : Except ProjectFault Text}
    (h : r.compile format settings path = .ok (result, r')) : compileFile format r.tree settings path = .ok result ∧
      r'.tree = r.tree ∧ r'.written = r.written ∧ r'.log.errorCount = r.log.errorCount := by
  rw [compile] at h
  split at h
  · rename_i e he
    obtain ⟨rfl, rfl⟩ := Prod.mk.inj (Except.ok.inj h)
    rw [compileFile, he]
    exact ⟨rfl, rfl, rfl, rfl⟩
  · rename_i text htext
    rw [compileFile, htext]
    obtain ⟨compiled, hcompiled, h⟩ := bind_eq_ok.1 h
    obtain ⟨rfl, rfl⟩ := Prod.mk.inj (Except.ok.inj h)
    exact ⟨hcompiled, rfl, rfl, rfl⟩

theorem errorCount_report (log : Log) {f : ProjectFault}
    (hf : f.isDiagnosed → 0 < Diagnostic.countErrors f.diagnostics) :
    log.errorCount < (report lang log f).errorCount := by
  rw [report]
  split
  · rename_i hdiagnosed
    rw [Log.diagnostics_errorCount]
    exact Nat.lt_add_of_pos_right (hf hdiagnosed)
  · rw [Log.error_errorCount]
    exact Nat.lt_succ_self _

/-- What building one file did: the file was compiled and written, or an error was counted. -/
inductive Built [Language] (format : Formatter) (p : Project) (dir file : Text) (r r' : Run) : Prop
  | written (code : Text) (hcode : compileFile format r.tree p.settings (p.inputPath file) = .ok (.ok code))
      (hwrite : writeOutput r.tree (p.outputPath dir file) code = .ok r'.tree) (hcount : r'.written = r.written + 1)
      (hlog : r'.log.errorCount = r.log.errorCount)
  | failed (hlog : r.log.errorCount < r'.log.errorCount)

theorem buildFile_spec (h : buildFile lang format p dir r file = .ok r') : Built format p dir file r r' := by
  obtain ⟨⟨result, r₁⟩, hcompile, h⟩ := bind_eq_ok.1 h
  obtain ⟨hfile, htree, hwritten, hlog⟩ := compile_spec hcompile
  rw [Log.info_errorCount] at hlog
  dsimp only at h hfile htree hwritten
  split at h
  · rename_i f
    obtain rfl := Except.ok.inj h
    exact .failed (hlog ▸ errorCount_report r₁.log fun hf => countErrors_pos_of_compileFile hfile hf)
  · rename_i code
    split at h
    · obtain rfl := Except.ok.inj h
      refine .failed ?_
      rw [Log.error_errorCount, hlog]
      exact Nat.lt_succ_self _
    · rename_i tree htree'
      obtain rfl := Except.ok.inj h
      exact .written code hfile (htree ▸ htree') (congrArg (· + 1) hwritten) hlog

/-! ### All files -/

theorem errorCount_le_foldlM {files : List Text} (h : files.foldlM (buildFile lang format p dir) r = .ok r') :
    r.log.errorCount ≤ r'.log.errorCount := by
  induction files generalizing r with
  | nil =>
    obtain rfl := Except.ok.inj h
    exact Nat.le_refl _
  | cons f files ih =>
    obtain ⟨r₁, hbuild, hrest⟩ := bind_eq_ok.1 h
    cases buildFile_spec hbuild with
    | written _ _ _ _ hlog => exact hlog ▸ ih hrest
    | failed hlog => exact Nat.le_trans (Nat.le_of_lt hlog) (ih hrest)

end Run

/-- What writing one output changes. -/
theorem writeOutput_spec {t t' : FileTree} {path code : Text} (h : writeOutput t path code = .ok t') :
    Grows t t' ∧ ∃ q, t'.resolve path = .ok q ∧ t'.entryAt q = some (.file code) ∧
      ∀ q' e, q' ≠ q → t.entryAt q' = some e → t'.entryAt q' = some e := by
  obtain ⟨t₁, hdirs, hwrite⟩ := bind_eq_ok.1 h
  have hextends := makeDirs_extends (mapError_eq_ok.1 hdirs)
  obtain ⟨q, hne, hfile, rfl, hq⟩ := write_spec (mapError_eq_ok.1 hwrite)
  refine ⟨hextends.grows.trans (grows_put_file hne hfile code), q, hq, ?_, fun q' e hq' he => ?_⟩
  · rw [entryAt_put t₁ hne, if_pos rfl]
  · rw [entryAt_put t₁ hne, if_neg hq']
    exact hextends.entry q' e he

namespace Run

variable {lang : Language} {format : Formatter} {p : Project} {dir file : Text} {r r' : Run}

/-- What a build without errors did to the tree. -/
structure Wrote (p : Project) (dir : Text) (files : List Text) (r r' : Run) : Prop where
  count : r'.written = r.written + files.length
  grows : Grows r.tree r'.tree
  places : ∀ f ∈ files, ∃ q, r'.tree.resolve (p.outputPath dir f) = .ok q
  frame : ∀ q e, r.tree.entryAt q = some e → (∀ f ∈ files, r'.tree.resolve (p.outputPath dir f) ≠ .ok q) →
    r'.tree.entryAt q = some e

theorem wrote {files : List Text} (h : files.foldlM (buildFile lang format p dir) r = .ok r')
    (hlog : r'.log.errorCount = r.log.errorCount) : Wrote p dir files r r' := by
  induction files generalizing r with
  | nil =>
    obtain rfl := Except.ok.inj h
    exact ⟨rfl, .refl _, by simp, fun _ _ he _ => he⟩
  | cons f files ih =>
    obtain ⟨r₁, hbuild, hrest⟩ := bind_eq_ok.1 h
    cases buildFile_spec hbuild with
    | failed hgrown => exact absurd (errorCount_le_foldlM hrest) (by omega)
    | written code hcode hwrite hcount hsame =>
      have htail := ih hrest (hlog.trans hsame.symm)
      obtain ⟨hgrows, q, hq, hfile, hframe⟩ := writeOutput_spec hwrite
      have hplace := htail.grows.resolve hq
      refine ⟨?_, hgrows.trans htail.grows, List.forall_mem_cons.2 ⟨⟨q, hplace⟩, htail.places⟩,
        fun q' e he hother => ?_⟩
      · rw [htail.count, hcount, List.length_cons, Nat.add_assoc, Nat.add_comm 1]
      · obtain ⟨hfirst, hrest'⟩ := List.forall_mem_cons.1 hother
        have hne : q' ≠ q := by
          rintro rfl
          exact hfirst hplace
        exact htail.frame q' e (hframe q' e hne he) hrest'

/-- The code of a file is there in the end if every later file is written to another place. -/
theorem exists_code {done todo : List Text} (h : (done ++ file :: todo).foldlM (buildFile lang format p dir) r = .ok r')
    (hlog : r'.log.errorCount = r.log.errorCount)
    (hother : ∀ f ∈ todo, ∀ q q', r'.tree.resolve (p.outputPath dir file) = .ok q →
      r'.tree.resolve (p.outputPath dir f) = .ok q' → q ≠ q') :
    ∃ r₁ code, done.foldlM (buildFile lang format p dir) r = .ok r₁ ∧
      compileFile format r₁.tree p.settings (p.inputPath file) = .ok (.ok code) ∧
      r'.tree.read (p.outputPath dir file) = .ok code := by
  rw [List.foldlM_append] at h
  obtain ⟨r₁, hdone, h⟩ := bind_eq_ok.1 h
  obtain ⟨r₂, hbuild, htodo⟩ := bind_eq_ok.1 h
  have hle₁ := errorCount_le_foldlM hdone
  have hle₂ := errorCount_le_foldlM htodo
  cases buildFile_spec hbuild with
  | failed hgrown => omega
  | written code hcode hwrite hcount hsame =>
    have hwrote := wrote htodo (by omega)
    obtain ⟨-, q, hq, hfile, -⟩ := writeOutput_spec hwrite
    have hplace := hwrote.grows.resolve hq
    refine ⟨r₁, code, hdone, hcode, read_of_resolve hplace (hwrote.frame q _ hfile fun f hf hsame => ?_)⟩
    exact hother f hf q q hplace hsame rfl

end Run

namespace Run

/-- Files with different stems are written to different places. -/
def Apart (p : Project) (dir : Text) : Prop := ∀ f ∈ p.files, ∀ g ∈ p.files, Path.stem f ≠ Path.stem g →
  ∀ (t : FileTree) (q q' : Place), t.resolve (p.outputPath dir f) = .ok q → t.resolve (p.outputPath dir g) = .ok q' →
    q ≠ q'

theorem outputPath_eq_iff {p : Project} {dir : Text} (hfiles : (∃ f, p.files = [f]) ∨ ∀ f ∈ p.files, Path.Named f)
    (hsuffix : Path.isName p.settings.suffix) (hslash : Path.slash ∉ p.settings.suffix) {f g : Text}
    (hf : f ∈ p.files) (hg : g ∈ p.files) :
    p.outputPath dir f = p.outputPath dir g ↔ Path.stem f = Path.stem g := by
  rcases hfiles with ⟨x, hx⟩ | hnamed
  · rw [hx, List.mem_singleton] at hf hg
    rw [hf, hg]
    exact iff_of_true rfl rfl
  · exact Path.join_output_eq_iff dir (hnamed f hf) (hnamed g hg) hsuffix hslash

theorem apart {p : Project} {dir : Text} (hfiles : (∃ f, p.files = [f]) ∨ ∀ f ∈ p.files, Path.Named f)
    (hsuffix : Path.isName p.settings.suffix) (hslash : Path.slash ∉ p.settings.suffix) : Apart p dir := by
  intro f hf g hg hne t q q' hq hq'
  rcases hfiles with ⟨x, hx⟩ | hnamed
  · rw [hx, List.mem_singleton] at hf hg
    exact absurd (by rw [hf, hg]) hne
  · refine resolve_join_ne (Path.named_output (hnamed f hf) hsuffix hslash)
      (Path.named_output (hnamed g hg) hsuffix hslash) (fun heq => hne ?_) hq hq'
    rw [Path.output_eq, Path.output_eq] at heq
    exact List.append_cancel_right heq

theorem errorCount_of_exitCode {lang : Language} {tag success : Text} {r : Run}
    (h : (r.finish lang tag success).exitCode = 0) : r.log.errorCount = 0 := by
  rw [finish] at h
  split at h
  · cases h
  · rename_i hcount
    simpa [Log.summary] using hcount

theorem tree_finish (lang : Language) (tag success : Text) (r : Run) : (r.finish lang tag success).tree = r.tree := by
  rw [finish]
  split <;> rfl

theorem dedup_length_eq_iff {files : List Text} {out stem : Text → Text}
    (h : ∀ f ∈ files, ∀ g ∈ files, out f = out g ↔ stem f = stem g) :
    files.length = (files.map out).dedup.length ↔ (files.map stem).Nodup := by
  have hnodup : (files.map out).Nodup ↔ (files.map stem).Nodup := by
    unfold List.Nodup
    rw [List.pairwise_map, List.pairwise_map]
    exact List.Pairwise.iff_of_mem fun hf hg => not_congr (h _ hf _ hg)
  rw [← hnodup]
  constructor
  · intro hlength
    have hdedup : (files.map out).dedup = files.map out :=
      (List.dedup_sublist _).eq_of_length (by rw [← hlength, List.length_map])
    exact List.dedup_eq_self.1 hdedup
  · intro hnodup
    rw [List.dedup_eq_self.2 hnodup, List.length_map]

/-- How a build ends after its last file: with the number of files that were written. -/
def ended (lang : Language) (dir : Text) (r : Run) : Outcome :=
  r.finish lang "Build" (Notice.buildCompleted.word lang [.number r.written, dir])

/-- A build of a loaded project writes the files with one stem to one path and those with different stems to different
places.  If it ends without an error, then each file was compiled and written, and the last file with a stem is the one
whose code is there. -/
theorem build_writes_stems {lang : Language} {format : Formatter} {level : LogLevel} {t : FileTree}
    {input output : Text} {noImports : Bool} {loaded : Project} (ht : t.Named)
    (hload : Project.load t input = .ok loaded)
    (hsuffix : Path.isName loaded.settings.suffix) (hslash : Path.slash ∉ loaded.settings.suffix) :
    let p := if noImports then loaded.keepImports else loaded
    let dir := p.outputDir output
    let start : Run := { tree := t, log := announce lang p { level } }
    (∀ f ∈ p.files, ∀ g ∈ p.files, p.outputPath dir f = p.outputPath dir g ↔ Path.stem f = Path.stem g) ∧
      ∀ o, Run.build lang format input output noImports { tree := t, log := { level } } = .ok o → o.exitCode = 0 →
        ∃ r, p.files.foldlM (buildFile lang format p dir) start = .ok r ∧
          o = ended lang dir r ∧
          r.written = p.files.length ∧
          (r.written = (p.files.map (p.outputPath dir)).dedup.length ↔ (p.files.map Path.stem).Nodup) ∧
          ∀ done f todo, p.files = done ++ f :: todo → Path.stem f ∉ todo.map Path.stem →
            ∃ r₁ code, done.foldlM (buildFile lang format p dir) start = .ok r₁ ∧
              compileFile format r₁.tree p.settings (p.inputPath f) = .ok (.ok code) ∧
              o.tree.read (p.outputPath dir f) = .ok code := by
  intro p dir start
  have hsame : p.files = loaded.files ∧ p.settings.suffix = loaded.settings.suffix := by
    show (if noImports then loaded.keepImports else loaded).files = _ ∧
      (if noImports then loaded.keepImports else loaded).settings.suffix = _
    split <;> exact ⟨rfl, rfl⟩
  have hfiles := Project.named_of_load ht hload
  rw [← hsame.1] at hfiles
  rw [← hsame.2] at hsuffix hslash
  have hpaths : ∀ f ∈ p.files, ∀ g ∈ p.files, p.outputPath dir f = p.outputPath dir g ↔ Path.stem f = Path.stem g :=
    fun f hf g hg => outputPath_eq_iff hfiles hsuffix hslash hf hg
  refine ⟨hpaths, fun o hbuild hexit => ?_⟩
  rw [build, hload] at hbuild
  obtain ⟨r, hrun, ho⟩ := bind_eq_ok.1 hbuild
  obtain rfl := Except.ok.inj ho
  have hstart : start.log.errorCount = 0 := by
    show (announce lang p { level }).errorCount = 0
    rw [announce]
    split <;> simp
  have hlog : r.log.errorCount = start.log.errorCount := (errorCount_of_exitCode hexit).trans hstart.symm
  have hwrote := wrote hrun hlog
  have hcount : r.written = p.files.length := hwrote.count.trans (Nat.zero_add _)
  refine ⟨r, hrun, rfl, hcount, hcount ▸ dedup_length_eq_iff hpaths, fun done f todo hsplit hlast => ?_⟩
  have htree : (ended lang dir r).tree = r.tree := tree_finish ..
  rw [hsplit] at hrun
  refine htree ▸ exists_code hrun hlog fun g hg q q' hq hq' => ?_
  have hne : Path.stem f ≠ Path.stem g := fun heq => hlast (heq ▸ List.mem_map_of_mem hg)
  exact apart hfiles hsuffix hslash f (by simp [hsplit]) g (by simp [hsplit, hg]) hne r.tree q q' hq hq'

/-- A declaration file and a document that have one stem. -/
def twins : FileTree :=
  ({ workingDir := ["w"] } : FileTree).addFile ["w", "a.mt"] "package p\n"
    |>.addFile ["w", "a.mt.yaml"] "package: q\n"

/-- The project of both. -/
def twinProject : Project := ⟨{}, none, ".", ["a.mt", "a.mt.yaml"]⟩

theorem load_twins : Project.load twins "." = .ok twinProject := by
  have hstat : twins.stat "." = .ok .directory := by decide +kernel
  have hplace : twins.resolve "." = .ok ["w"] := by decide +kernel
  have hfound : (twins.files.filterMap fun q => if List.isPrefixOf (["w"] : Place) q.1 then
      some (Text.join [Path.slash] (q.1.drop 1)) else none) = ["a.mt", "a.mt.yaml"] := by decide +kernel
  have hsorted : List.mergeSort (["a.mt", "a.mt.yaml"] : List Text) Text.le = ["a.mt", "a.mt.yaml"] :=
    List.mergeSort_of_pairwise (by decide +kernel)
  have hbelow : twins.filesBelow "." = .ok ["a.mt", "a.mt.yaml"] :=
    bind_eq_ok.2 ⟨["w"], of_eq_ok.2 hplace, congrArg Except.ok
      ((congrArg (List.mergeSort · Text.le) hfound).trans hsorted)⟩
  have hcollect : Project.collect twins "." = .ok ["a.mt", "a.mt.yaml"] :=
    bind_eq_ok.2 ⟨_, mapError_eq_ok.2 hbelow, by decide +kernel⟩
  have hinputs : Project.inputs twins "." = .ok (".", ["a.mt", "a.mt.yaml"]) :=
    bind_eq_ok.2 ⟨.directory, mapError_eq_ok.2 hstat, bind_eq_ok.2 ⟨_, hcollect, rfl⟩⟩
  exact bind_eq_ok.2 ⟨_, hinputs, by decide +kernel⟩

theorem exists_build_twins : ∃ r : Run,
    Run.build .english Host.format "." [] false { tree := twins, log := { level := .silent } } =
      .ok (ended .english "." r) ∧
    (ended .english "." r).exitCode = 0 ∧
    r.written = 2 ∧ r.tree.files.length = 3 := by
  have hrun : (twinProject.files.foldlM (buildFile .english Host.format twinProject ".")
      { tree := twins, log := announce .english twinProject { level := .silent } }).map
        (fun r => (r.written, r.log.errorCount, r.tree.files.length)) = .ok (2, 0, 3) := by decide +kernel
  cases hr : twinProject.files.foldlM (buildFile .english Host.format twinProject ".")
      { tree := twins, log := announce .english twinProject { level := .silent } } with
  | error e =>
    rw [hr] at hrun
    cases hrun
  | ok r =>
    rw [hr] at hrun
    obtain ⟨hwritten, hrest⟩ := Prod.mk.inj (Except.ok.inj hrun)
    obtain ⟨hlog, hfiles⟩ := Prod.mk.inj hrest
    refine ⟨r, ?_, ?_, hwritten, hfiles⟩
    · rw [build, load_twins]
      exact bind_eq_ok.2 ⟨r, hr, rfl⟩
    · rw [ended, finish, if_neg]
      simp [Log.summary, hlog]

/-- Two files are generated, one over the other, and the build succeeds. -/
theorem build_overwrites_twins : ∃ r : Run,
    Project.load twins "." = .ok twinProject ∧ twinProject.files = [Text.ofString "a.mt", Text.ofString "a.mt.yaml"] ∧
    twinProject.outputPath "." "a.mt" = twinProject.outputPath "." "a.mt.yaml" ∧
    Run.build .english Host.format "." [] false { tree := twins, log := { level := .silent } } =
      .ok (ended .english "." r) ∧
    (ended .english "." r).exitCode = 0 ∧
    r.written = 2 ∧ r.tree.files.length = twins.files.length + 1 := by
  obtain ⟨r, hbuild, hexit, hwritten, hfiles⟩ := exists_build_twins
  exact ⟨r, load_twins, rfl, by decide +kernel, hbuild, hexit, hwritten, hfiles.trans (by decide +kernel)⟩

theorem build_writes_stems_twins : ∃ o,
    Run.build .english Host.format "." [] false { tree := twins, log := { level := .silent } } = .ok o ∧
      o.exitCode = 0 ∧
    ∃ t code, @compileFile .english Host.format t twinProject.settings "a.mt.yaml" = .ok (.ok code) ∧
      o.tree.read "a_mt.go" = .ok code := by
  obtain ⟨r, hbuild, hexit, -⟩ := exists_build_twins
  have hnamed : twins.Named := by
    unfold FileTree.Named
    decide +kernel
  obtain ⟨-, h⟩ := @build_writes_stems .english Host.format .silent twins "." [] false twinProject hnamed load_twins
    (by decide +kernel) (by decide +kernel)
  obtain ⟨-, -, -, -, -, hlast⟩ := h _ hbuild hexit
  obtain ⟨r₁, code, -, hcode, hread⟩ := hlast ["a.mt"] "a.mt.yaml" [] rfl List.not_mem_nil
  have hinput : twinProject.inputPath "a.mt.yaml" = "a.mt.yaml" := by decide +kernel
  have houtput : twinProject.outputPath "." "a.mt.yaml" = "a_mt.go" := by decide +kernel
  exact ⟨_, hbuild, hexit, r₁.tree, code, hinput ▸ hcode, houtput ▸ hread⟩

end Run

end MeaningForest

import MeaningForest.Proofs.Locations
import MeaningForest.Proofs.Outputs

/-!
# Trees and error counts of runs

What a run does to the tree and to the number of errors can be told without its log: each file is compiled, what was
generated is written, and the errors of the file are added (`Run.buildStep`, `Run.checkStep`).  A build and a check are
these steps along the files (`Run.build_view`, `Run.check_view`), and the exit code is that of the count.

A file is compiled alike in a tree to which outputs were added elsewhere (`compileFile_overlay`).
-/

namespace MeaningForest

open FileTree

/-- The number of errors that a fault is counted as: its diagnostics, or one if it has none. -/
def ProjectFault.errors (f : ProjectFault) : Nat :=
  if f.isDiagnosed then Diagnostic.countErrors f.diagnostics else 1

/-- The number of errors that are counted for a file that was compiled or not. -/
def compileErrors : Except ProjectFault Text → Nat
  | .error f => f.errors
  | .ok _ => 0

theorem errors_pos_of_compileFile {t : FileTree} {format : Formatter} {settings : Settings} {path : Text}
    {f : ProjectFault} {lang : Language} (h : compileFile format t settings path = .ok (.error f)) : 0 < f.errors := by
  rw [ProjectFault.errors]
  split
  · rename_i hf
    exact countErrors_pos_of_compileFile h hf
  · exact Nat.one_pos

/-! ### Views -/

/-- The tree and the number of errors of a run. -/
abbrev RunView := FileTree × Nat

namespace Run

variable {lang : Language} {format : Formatter} {p : Project} {dir file : Text} {r : Run}

/-- What is seen of a run without its log. -/
def view (r : Run) : RunView := (r.tree, r.log.errorCount)

/-- Writes what was generated for a file, and tells the number of its errors. -/
def settle (tree : FileTree) (output : Text) : Except ProjectFault Text → RunView
  | .error f => (tree, f.errors)
  | .ok code =>
    match writeOutput tree output code with
    | .ok tree' => (tree', 0)
    | .error _ => ((tree.tryDirs (Path.dir output)).1, 1)

/-- Building one file, without the log. -/
def buildStep (lang : Language) (format : Formatter) (p : Project) (dir : Text) (s : RunView) (file : Text) :
    Except Fault RunView :=
  (compileFile format s.1 p.settings (p.inputPath file)).map fun result =>
    let done := settle s.1 (p.outputPath dir file) result
    (done.1, s.2 + done.2)

/-- Checking one file, without the log. -/
def checkStep (lang : Language) (format : Formatter) (p : Project) (s : RunView) (file : Text) : Except Fault RunView :=
  (compileFile format s.1 p.settings (p.inputPath file)).map fun result => (s.1, s.2 + compileErrors result)

/-- The run after a file was read: its text is remembered if there is one. -/
def noted (r : Run) (path : Text) : Run :=
  match readDeclarations r.tree path with
  | .error _ => r
  | .ok text => { r with log := r.log.addSource path text }

theorem view_noted (r : Run) (path : Text) : (r.noted path).view = r.view := by
  rw [noted]
  split <;> rfl

theorem view_info (r : Run) (tag message : Text) : view { r with log := r.log.info tag message } = r.view := by
  rw [view, Log.info_errorCount, view]

theorem compile_eq (settings : Settings) (path : Text) (r : Run) :
    r.compile format settings path = (compileFile format r.tree settings path).map (·, r.noted path) := by
  rw [compile, compileFile, noted]
  cases readDeclarations r.tree path with
  | error f => rfl
  | ok text =>
    dsimp only
    cases compileText format settings path text <;> rfl

theorem errorCount_report_eq (log : Log) (f : ProjectFault) :
    (report lang log f).errorCount = log.errorCount + f.errors := by
  rw [report, ProjectFault.errors]
  split
  · exact Log.diagnostics_errorCount ..
  · exact Log.error_errorCount ..

theorem buildFile_view (lang : Language) (p : Project) (dir : Text) (r : Run) (file : Text) :
    buildStep lang format p dir r.view file = (buildFile lang format p dir r file).map view := by
  obtain ⟨log, hlog⟩ : ∃ log, log = r.log.info "Build" (Notice.generating.word lang [p.inputPath file,
      p.outputPath dir file]) := ⟨_, rfl⟩
  have hview : (noted { r with log } (p.inputPath file)).view = r.view := by rw [view_noted, hlog, view_info]
  rw [buildStep, buildFile, ← hlog, compile_eq]
  show (compileFile format r.tree _ _).map _ = _
  cases compileFile format r.tree p.settings (p.inputPath file) with
  | error e => rfl
  | ok result =>
    dsimp only [Except.map, bind, Except.bind]
    obtain ⟨htree, hcount⟩ := Prod.mk.inj hview
    generalize noted { r with log } (p.inputPath file) = r₁ at htree hcount
    cases result with
    | error f =>
      simp only [settle, view, pure, Except.pure, errorCount_report_eq, hcount, htree]
    | ok code =>
      simp only [settle, view, htree]
      cases writeOutput r.tree (p.outputPath dir file) code with
      | error f => simp [pure, Except.pure, hcount]
      | ok tree => simp [pure, Except.pure, hcount]

theorem checkFile_view (lang : Language) (p : Project) (r : Run) (file : Text) :
    checkStep lang format p r.view file = (checkFile lang format p r file).map view := by
  obtain ⟨log, hlog⟩ : ∃ log, log = r.log.info "Check" (Notice.checking.word lang [p.inputPath file]) := ⟨_, rfl⟩
  have hview : (noted { r with log } (p.inputPath file)).view = r.view := by rw [view_noted, hlog, view_info]
  rw [checkStep, checkFile, ← hlog, compile_eq]
  show (compileFile format r.tree _ _).map _ = _
  cases compileFile format r.tree p.settings (p.inputPath file) with
  | error e => rfl
  | ok result =>
    dsimp only [Except.map, bind, Except.bind]
    obtain ⟨htree, hcount⟩ := Prod.mk.inj hview
    generalize noted { r with log } (p.inputPath file) = r₁ at htree hcount
    cases result with
    | error f => simp only [compileErrors, view, pure, Except.pure, errorCount_report_eq, hcount, htree]
    | ok code => simp only [compileErrors, view, pure, Except.pure, hcount, htree, Nat.add_zero]

theorem foldlM_buildFile_view (files : List Text) (r : Run) :
    files.foldlM (buildStep lang format p dir) r.view = (files.foldlM (buildFile lang format p dir) r).map view :=
  foldlM_map (buildFile_view lang p dir) files r

theorem foldlM_checkFile_view (files : List Text) (r : Run) :
    files.foldlM (checkStep lang format p) r.view = (files.foldlM (checkFile lang format p) r).map view :=
  foldlM_map (checkFile_view lang p) files r

end Run

/-! ### Ends -/

/-- The exit code of a run with a number of errors. -/
def exitCodeOf (errors : Nat) : Nat := if 0 < errors then 1 else 0

/-- An outcome without its log: the exit code, the tree and the number of errors. -/
def Outcome.view (o : Outcome) : Nat × RunView := (o.exitCode, o.tree, o.log.errorCount)

namespace Run

variable {lang : Language} {format : Formatter} {t : FileTree} {p : Project} {dir file : Text} {r : Run}

theorem finish_view (lang : Language) (tag success : Text) (r : Run) :
    (r.finish lang tag success).view = (exitCodeOf r.log.errorCount, r.view) := by
  have hcount : r.log.summary.errorCount = r.log.errorCount := Log.printAt_errorCount ..
  rw [finish, exitCodeOf, hcount]
  split
  · rw [Outcome.view]
    exact congrArg (fun n => (1, r.tree, n)) hcount
  · rw [Outcome.view, Log.info_errorCount, hcount]
    rfl

theorem announce_errorCount (lang : Language) (p : Project) (log : Log) :
    (announce lang p log).errorCount = log.errorCount := by
  rw [announce]
  split <;> exact Log.info_errorCount ..

theorem view_announce (lang : Language) (p : Project) (r : Run) :
    view { r with log := announce lang p r.log } = r.view := by
  rw [view, announce_errorCount, view]

/-- A build is the steps along the files. -/
theorem build_view (lang : Language) (format : Formatter) (output : Text) (noImports : Bool) (r : Run) {input : Text}
    {loaded : Project}
    (hload : Project.load r.tree input = .ok loaded) :
    let p := if noImports then loaded.keepImports else loaded
    (build lang format input output noImports r).map Outcome.view =
      (p.files.foldlM (buildStep lang format p (p.outputDir output)) r.view).map fun s => (exitCodeOf s.2, s) := by
  intro p
  obtain ⟨start, hstart⟩ : ∃ start : Run, start = { r with log := announce lang p r.log } := ⟨_, rfl⟩
  have hview : start.view = r.view := by rw [hstart, view_announce]
  rw [build, hload]
  show Except.map _ (p.files.foldlM (buildFile lang format p (p.outputDir output)) _ >>= _) = _
  rw [← hstart, ← hview, foldlM_buildFile_view]
  cases p.files.foldlM (buildFile lang format p (p.outputDir output)) start with
  | error e => rfl
  | ok r' => exact congrArg Except.ok (finish_view ..)

/-- A check is the steps along the files. -/
theorem check_view (lang : Language) (format : Formatter) (r : Run) {input : Text} {loaded : Project}
    (hload : Project.load r.tree input = .ok loaded) :
    (check lang format input r).map Outcome.view =
      (loaded.files.foldlM (checkStep lang format loaded.keepImports) r.view).map fun s => (exitCodeOf s.2, s) := by
  obtain ⟨start, hstart⟩ : ∃ start : Run, start = { r with log := announce lang loaded r.log } := ⟨_, rfl⟩
  have hview : start.view = r.view := by rw [hstart, view_announce]
  rw [check, hload]
  show Except.map _ (loaded.files.foldlM (checkFile lang format loaded.keepImports) _ >>= _) = _
  rw [← hstart, ← hview, foldlM_checkFile_view]
  cases loaded.files.foldlM (checkFile lang format loaded.keepImports) start with
  | error e => rfl
  | ok r' => exact congrArg Except.ok (finish_view ..)

end Run

/-! ### Files in overlays -/

theorem writeOutput_overlay {t t' : FileTree} {path code : Text} (hdirect : Path.Direct (Path.elements path))
    (h : writeOutput t path code = .ok t') : Overlay t t' [path] := by
  obtain ⟨t₁, hdirs, hwrite⟩ := bind_eq_ok.1 h
  have hmade := tryDirs_of_makeDirs (mapError_eq_ok.1 hdirs)
  have hboth := (hmade ▸ tryDirs_overlay t hdirect).trans (write_overlay (mapError_eq_ok.1 hwrite))
  exact hboth.mono (by simp)

/-- A file that is not at the location of an output is compiled as before the outputs were written, or cannot be read
before and afterwards. -/
theorem compileFile_overlay {lang : Language} {format : Formatter} {t t' : FileTree} {outputs : List Text} {path : Text}
    (h : Overlay t t' outputs)
    (ht : t.Regular) (hdirect : Path.Direct (Path.elements path))
    (hother : ∀ o ∈ outputs, t.location o ≠ t.location path) :
    (∃ cause cause', ∀ settings, compileFile format t settings path = .ok (.error (.unreadable path cause)) ∧
      compileFile format t' settings path = .ok (.error (.unreadable path cause'))) ∨
    ∀ settings, compileFile format t' settings path = compileFile format t settings path := by
  have hread : ∀ content, t'.read path = .ok content ↔ t.read path = .ok content := fun _ => h.read ht hdirect hother
  simp only [compileFile, readDeclarations]
  cases hold : t.read path with
  | ok text =>
    rw [(hread text).2 hold]
    exact .inr fun _ => rfl
  | error cause =>
    cases hnew : t'.read path with
    | ok text => cases hold.symm.trans ((hread text).1 hnew)
    | error cause' => exact .inl ⟨cause, cause', fun _ => ⟨rfl, rfl⟩⟩

end MeaningForest

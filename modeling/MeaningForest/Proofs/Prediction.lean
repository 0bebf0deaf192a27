import MeaningForest.Proofs.Independence

/-!
# Checks predict builds

A check compiles each file in the tree as it is and leaves imports as they are; a build compiles it in the tree that the
files before it left, and may change imports.  If the formatter refuses the same sources in both cases
(`Formatter.Validates`), neither makes a difference to how many errors a file has (`errors_compileFile_keepImports`,
`Run.buildStep_checkStep`), so that a check has the exit code and the number of errors of the build
(`Run.check_predicts_build`).
-/

namespace MeaningForest

open FileTree

/-! ### The formatter -/

/-- What is known of a formatter: it refuses exactly the sources that are not valid, whether or not it may change their
imports. -/
structure Formatter.Validates (format : Formatter) (valid : Text → Prop) : Prop where
  accepts_iff : ∀ fixImports source, (∃ code, format fixImports source = .ok code) ↔ valid source

theorem Host.validates_format : Formatter.Validates Host.format fun source => (Host.parseFile? source).isSome where
  accepts_iff fixImports source := by
    rw [Host.format]
    cases Host.parseFile? source <;> simp

variable {format : Formatter} {valid : Text → Prop}

/-- Whether the imports of a file may be changed makes no difference to the number of its errors. -/
theorem DeclFile.errors_compile (hformat : format.Validates valid) (lang : Language) (path : Text)
    (settings : Settings) (fixImports : Bool) (f : DeclFile) :
    (f.compile format { settings with fixImports }).map (fun r => compileErrors (r.mapError (.rejected path))) =
      (f.compile format settings).map fun r => compileErrors (r.mapError (.rejected path)) := by
  have hgenerate : f.generate { settings with fixImports } = f.generate settings := rfl
  rw [DeclFile.compile, DeclFile.compile, hgenerate]
  cases f.generate settings with
  | error e => rfl
  | ok result =>
    dsimp only [bind, Except.bind]
    cases result with
    | error r => rfl
    | ok code =>
      have hsame := (hformat.accepts_iff fixImports code.text).trans
        (hformat.accepts_iff settings.fixImports code.text).symm
      dsimp only
      cases hchanged : format fixImports code.text with
      | ok text =>
        obtain ⟨text', htext'⟩ := hsame.1 ⟨text, hchanged⟩
        rw [htext']
        rfl
      | error fault =>
        cases hkept : format settings.fixImports code.text with
        | ok text' =>
          obtain ⟨text, htext⟩ := hsame.2 ⟨text', hkept⟩
          cases hchanged.symm.trans htext
        | error fault' => rfl

theorem errors_compileFile_keepImports (hformat : format.Validates valid) (lang : Language) (t : FileTree) (p : Project)
    (path : Text) : (compileFile format t p.keepImports.settings path).map (compileErrors) =
      (compileFile format t p.settings path).map (compileErrors) := by
  rw [compileFile, compileFile]
  cases readDeclarations t path with
  | error f => rfl
  | ok text =>
    dsimp only [compileText, bind, Except.bind]
    cases (DeclFormat.ofPath path).read path text with
    | error e => rfl
    | ok result =>
      dsimp only
      cases result.accept path with
      | error r => rfl
      | ok file =>
        have hcount : ∀ x : Except Fault (Except Rejection Text),
            (x >>= fun r => pure (r.mapError (ProjectFault.rejected path))).map (compileErrors) =
              x.map fun r => compileErrors (r.mapError (.rejected path)) := by
          rintro (e | r) <;> rfl
        have hcompile := file.errors_compile hformat lang path p.settings false
        exact (hcount _).trans (hcompile.trans (hcount _).symm)

namespace Run

variable {lang : Language} {p : Project} {dir file : Text} {t tree : FileTree} {outputs : List Text}

/-! ### One file -/

/-- What a check finds in a file, told by what is found in it if imports may be changed. -/
theorem checkStep_keepImports (hformat : format.Validates valid) (lang : Language) (p : Project) (s : RunView)
    (file : Text) : checkStep lang format p.keepImports s file = checkStep lang format p s file := by
  have hcount : ∀ x : Except Fault (Except ProjectFault Text),
      x.map (fun result => (s.1, s.2 + compileErrors result)) =
        (x.map (compileErrors)).map fun n => (s.1, s.2 + n) := by
    rintro (e | result) <;> rfl
  rw [checkStep, checkStep, hcount, hcount (compileFile format s.1 p.settings _)]
  exact congrArg _ (errors_compileFile_keepImports hformat lang s.1 p (p.inputPath file))

/-- A check of a file in the tree before a build finds what the build finds, if what is generated can be written. -/
theorem buildStep_checkStep (lang : Language) (ht : t.Regular) (hover : Overlay t tree outputs)
    (hother : ∀ o ∈ outputs, t.location o ≠ t.location (p.inputPath file))
    (hwrites : ∀ code, compileFile format tree p.settings (p.inputPath file) = .ok (.ok code) →
      ∃ tree', writeOutput tree (p.outputPath dir file) code = .ok tree') (n : Nat) :
    (∃ e, buildStep lang format p dir (tree, n) file = .error e ∧ checkStep lang format p (t, n) file = .error e) ∨
    ∃ tree' n', buildStep lang format p dir (tree, n) file = .ok (tree', n') ∧
      checkStep lang format p (t, n) file = .ok (t, n') ∧ Overlay tree tree' [p.outputPath dir file] := by
  rcases buildStep_ended lang dir ht hover hother n with ⟨e, hfault, hbuild⟩ | ⟨ending, tree', hended, hbuild⟩
  · refine .inl ⟨e, hbuild, ?_⟩
    rw [checkStep, hfault]
    rfl
  · refine .inr ⟨tree', _, hbuild, ?_, hended.overlay.mono fun o ho => by simp [(Ending.mem_outputs.1 ho).1]⟩
    rw [checkStep]
    cases hended with
    | written hcode =>
      rw [hcode]
      rfl
    | rejected hfault =>
      rw [hfault]
      rfl
    | unwritten hcode hwrite =>
      rcases compileFile_overlay hover ht (Path.direct_join ..) hother with ⟨cause, cause', hunreadable⟩ | hsame
      · cases hcode.symm.trans (hunreadable p.settings).1
      · obtain ⟨tree', htree'⟩ := hwrites _ ((hsame p.settings).trans hcode)
        cases hwrite.symm.trans htree'

/-! ### All files -/

/-- Every output of a build can be written: when it is the turn of a file that is compiled, its code is written. -/
def Writes (lang : Language) (format : Formatter) (p : Project) (dir : Text) (start : Run) : Prop :=
  ∀ done f todo r code, p.files = done ++ f :: todo → done.foldlM (buildFile lang format p dir) start = .ok r →
    compileFile format r.tree p.settings (p.inputPath f) = .ok (.ok code) →
    ∃ tree, writeOutput r.tree (p.outputPath dir f) code = .ok tree

theorem foldlM_buildStep_checkStep {start : Run} (ht : start.tree.Regular) (hwrites : Writes lang format p dir start)
    (hinputs : ∀ f ∈ p.files, ∀ g ∈ p.files,
      start.tree.location (p.outputPath dir f) ≠ start.tree.location (p.inputPath g)) :
    (∃ e, p.files.foldlM (buildStep lang format p dir) start.view = .error e ∧
      p.files.foldlM (checkStep lang format p) start.view = .error e) ∨
    ∃ tree n, p.files.foldlM (buildStep lang format p dir) start.view = .ok (tree, n) ∧
      p.files.foldlM (checkStep lang format p) start.view = .ok (start.tree, n) := by
  -- the tree of the check stays, that of the build gets the outputs of the files that are done
  have hlockstep := @foldlM_lockstep _ _ _ _ (buildStep lang format p dir) (checkStep lang format p)
    (fun done s u => u = (start.tree, s.2) ∧ Overlay start.tree s.1 (done.map (p.outputPath dir)) ∧
      done.foldlM (buildStep lang format p dir) start.view = .ok s) p.files
    (fun done f todo s u hfiles hR => ?_) start.view start.view ⟨rfl, .refl .., rfl⟩
  · rcases hlockstep with hfault | ⟨s, u, hbuild, hcheck, rfl, -⟩
    · exact .inl hfault
    · exact .inr ⟨s.1, s.2, hbuild, hcheck⟩
  · obtain ⟨rfl, hover, hdone⟩ := hR
    have hf : f ∈ p.files := by simp [hfiles]
    have hother : ∀ o ∈ done.map (p.outputPath dir), start.tree.location o ≠ start.tree.location (p.inputPath f) := by
      rw [List.forall_mem_map]
      exact fun g hg => hinputs g (by simp [hfiles, hg]) f hf
    obtain ⟨r, hr, hview⟩ : ∃ r, done.foldlM (buildFile lang format p dir) start = .ok r ∧ r.view = s := by
      rw [foldlM_buildFile_view] at hdone
      cases hr : done.foldlM (buildFile lang format p dir) start with
      | error e =>
        rw [hr] at hdone
        cases hdone
      | ok r =>
        rw [hr] at hdone
        exact ⟨r, rfl, Except.ok.inj hdone⟩
    have htree : r.tree = s.1 := congrArg Prod.fst hview
    rcases buildStep_checkStep lang ht hover hother (fun code hcode => htree ▸ hwrites done f todo r code hfiles hr
      (htree ▸ hcode)) s.2 with ⟨e, hbuild, hcheck⟩ | ⟨tree', n', hbuild, hcheck, hnext⟩
    · exact .inl ⟨e, hbuild, hcheck⟩
    · refine .inr ⟨(tree', n'), (start.tree, n'), hbuild, hcheck, rfl, ?_, ?_⟩
      · rw [List.map_append]
        exact hover.trans hnext
      · rw [List.foldlM_append, hdone]
        show List.foldlM (buildStep lang format p dir) s [f] = _
        rw [List.foldlM_cons, hbuild]
        rfl

/-- The exit code and the number of errors that a run leaves. -/
def verdict (o : Outcome) : Nat × Nat := (o.exitCode, o.log.errorCount)

theorem map_verdict {x : Except Fault Outcome} : x.map verdict = (x.map Outcome.view).map fun v => (v.1, v.2.2) := by
  cases x <;> rfl

/-- A check has the exit code and the number of errors of the build, and the tree stays as it is, if every output of the
build can be written and goes to a place that is not that of an input, and if the formatter refuses what is not valid,
whether or not it may change imports. -/
theorem check_predicts_build (hformat : format.Validates valid) {lang : Language} {level : LogLevel} {t : FileTree}
    {input output : Text}
    {noImports : Bool} (ht : t.Regular)
    (houtputs : ∀ loaded, Project.load t input = .ok loaded →
      let p := if noImports then loaded.keepImports else loaded
      let dir := p.outputDir output
      Writes lang format p dir { tree := t, log := announce lang p { level } } ∧
        ∀ f ∈ p.files, ∀ g ∈ p.files, t.location (p.outputPath dir f) ≠ t.location (p.inputPath g)) :
    (Run.build lang format input output noImports { tree := t, log := { level } }).map verdict =
      (Run.check lang format input { tree := t, log := { level } }).map verdict ∧
    ∀ o, Run.check lang format input { tree := t, log := { level } } = .ok o → o.tree = t := by
  cases hload : Project.load t input with
  | error f =>
    rw [build, check, hload]
    refine ⟨rfl, fun o ho => ?_⟩
    obtain rfl := Except.ok.inj ho
    rfl
  | ok loaded =>
    obtain ⟨hwrites, hinputs⟩ := houtputs loaded hload
    obtain ⟨p, hp⟩ : ∃ p, p = if noImports then loaded.keepImports else loaded := ⟨_, rfl⟩
    rw [← hp] at hwrites hinputs
    have hsame : p.files = loaded.files ∧ p.keepImports = loaded.keepImports := by
      rw [hp]
      split <;> exact ⟨rfl, rfl⟩
    have hstart := view_announce lang p { tree := t, log := { level } }
    have hbuild := build_view lang format output noImports { tree := t, log := { level } } hload
    have hcheck := check_view lang format { tree := t, log := { level } } hload
    have hsteps : checkStep lang format loaded.keepImports = checkStep lang format p := by
      funext s file
      rw [← hsame.2, checkStep_keepImports hformat]
    rw [← hp] at hbuild
    rw [hsteps, ← hsame.1] at hcheck
    have hboth := foldlM_buildStep_checkStep ht hwrites hinputs
    rw [hstart] at hboth
    rw [map_verdict, map_verdict, hbuild]
    rcases hboth with ⟨e, hfault, hfault'⟩ | ⟨tree, n, hbuilt, hchecked⟩
    · rw [hfault'] at hcheck
      rw [hcheck, hfault]
      refine ⟨rfl, fun o ho => ?_⟩
      rw [ho] at hcheck
      cases hcheck
    · rw [hchecked] at hcheck
      rw [hcheck, hbuilt]
      refine ⟨rfl, fun o ho => ?_⟩
      rw [ho] at hcheck
      exact congrArg (fun v => v.2.1) (Except.ok.inj hcheck)

/-- The check of a file that is compiled and one that is rejected. -/
theorem check_predicts_build_pair :
    (Run.build .english Host.format "." [] false
        { tree := pair "package p\n" "package\n", log := { level := .silent } }).map verdict =
      (Run.check .english Host.format "."
        { tree := pair "package p\n" "package\n", log := { level := .silent } }).map verdict := by
  have hsettings : Settings.forDirectory (pair "package p\n" "package\n") "." = .ok ({}, none) := by decide +kernel
  have hload := load_pair hsettings
  have hregular : (pair "package p\n" "package\n").Regular := ⟨by decide +kernel, by decide +kernel⟩
  refine (check_predicts_build Host.validates_format hregular fun loaded hloaded => ?_).1
  obtain rfl := Except.ok.inj (hload.symm.trans hloaded)
  refine ⟨fun done f todo r code hfiles hrun hcode => ?_, (separate_pair ..).inputs⟩
  have hinputs : pairProject.inputPath "a.mt" = "a.mt" ∧ pairProject.inputPath "b.mt" = "b.mt" := by decide +kernel
  have houtput : pairProject.outputPath "." "a.mt" = "a_mt.go" := by decide +kernel
  have hfirst := @exists_writable .english Host.format (pair "package p\n" "package\n") {} "a.mt" "a_mt.go"
    (by decide +kernel)
  have hsecond : ((["a.mt"] : List Text).foldlM (buildFile .english Host.format pairProject ".")
      { tree := pair "package p\n" "package\n", log := announce .english pairProject { level := .silent } }).map
        (fun r => (@compileFile .english Host.format r.tree {} "b.mt").map fun result => result.isOk) =
          .ok (.ok false) := by decide +kernel
  cases done with
  | nil =>
    obtain ⟨rfl, -⟩ := List.cons.inj hfiles
    obtain rfl := Except.ok.inj hrun
    obtain ⟨code', hcode', hwrite⟩ := hfirst
    obtain rfl := Except.ok.inj (Except.ok.inj (hcode'.symm.trans (hinputs.1 ▸ hcode)))
    exact houtput ▸ hwrite
  | cons x done =>
    obtain ⟨rfl, hrest⟩ := List.cons.inj hfiles
    cases done with
    | nil =>
      obtain ⟨rfl, -⟩ := List.cons.inj hrest
      have hrejected : (@compileFile .english Host.format r.tree {} "b.mt").map (fun result => result.isOk) =
        .ok false :=
        Except.ok.inj ((congrArg (Except.map _) hrun).symm.trans hsecond)
      cases (congrArg (Except.map fun result => result.isOk) (hinputs.2 ▸ hcode)).symm.trans hrejected
    | cons y done => simp at hrest

end Run

end MeaningForest

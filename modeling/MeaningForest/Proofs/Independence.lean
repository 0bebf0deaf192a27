import MeaningForest.Proofs.Runs
import Mathlib.Algebra.Ring.Nat

/-!
# The files of a build

If the outputs of a project go to places of their own, none of which is that of an input, then the files of a build do
not depend on each other: each ends as it would alone (`Run.Ended`), one file after the other (`Run.Builds`).  In the
end there is the code of each file that was written, and nothing was written for one that was rejected.  The exit code
tells whether all files were written, and the count of errors is the sum of those of the files
(`Run.build_files_apart`).

The one thing that files have in common is a fault: a text on which the scanner faults ends the whole build
(`Run.build_stops_at_fault`).
-/

namespace MeaningForest

open FileTree

/-- What becomes of a file in a build. -/
inductive Ending where
  | written (code : Text)
  /-- The file is compiled, but its code cannot be written. -/
  | unwritten (code : Text) (fault : ProjectFault)
  /-- The file is not compiled. -/
  | rejected (fault : ProjectFault)
  deriving DecidableEq, Repr

namespace Ending

def isWritten : Ending → Bool
  | written _ => true
  | _ => false

/-- The number of errors that are counted for a file. -/
def errors : Ending → Nat
  | written _ => 0
  | unwritten .. => 1
  | rejected fault => fault.errors

/-- The paths that something is written for. -/
def outputs (path : Text) : Ending → List Text
  | rejected _ => []
  | _ => [path]

theorem mem_outputs {path o : Text} {ending : Ending} :
    o ∈ ending.outputs path ↔ o = path ∧ ∀ fault, ending ≠ rejected fault := by
  cases ending <;> simp [outputs]

end Ending

namespace Run

variable {lang : Language} {format : Formatter} {p : Project} {dir file : Text} {t tree tree' last : FileTree}
  {ending : Ending}
  {endings : List (Text × Ending)} {outputs : List Text} {n : Nat}

/-- The outputs of a project go to places of their own, none of which is that of an input. -/
structure Separate (t : FileTree) (p : Project) (dir : Text) : Prop where
  outputs : (p.files.map fun f => t.location (p.outputPath dir f)).Nodup
  inputs : ∀ f ∈ p.files, ∀ g ∈ p.files, t.location (p.outputPath dir f) ≠ t.location (p.inputPath g)

/-! ### One file -/

/-- How a file of a build ends: it is compiled as in the tree `t` before the build, and its code is written to the tree
that the files before it left. -/
inductive Ended [Language] (format : Formatter) (p : Project) (dir : Text) (t tree : FileTree) (file : Text) :
    Ending → FileTree → Prop
  | written {code : Text} {tree' : FileTree}
      (hcode : compileFile format t p.settings (p.inputPath file) = .ok (.ok code))
      (hwrite : writeOutput tree (p.outputPath dir file) code = .ok tree') :
      Ended format p dir t tree file (.written code) tree'
  | unwritten {code : Text} {fault : ProjectFault}
      (hcode : compileFile format t p.settings (p.inputPath file) = .ok (.ok code))
      (hwrite : writeOutput tree (p.outputPath dir file) code = .error fault) :
      Ended format p dir t tree file (.unwritten code fault) (tree.tryDirs (Path.dir (p.outputPath dir file))).1
  | rejected {fault : ProjectFault} (hfault : compileFile format t p.settings (p.inputPath file) = .ok (.error fault)) :
      Ended format p dir t tree file (.rejected fault) tree

theorem Ended.exists_compiled (h : Ended format p dir t tree file ending tree') :
    ∃ result, compileFile format t p.settings (p.inputPath file) = .ok result := by
  cases h with
  | written hcode => exact ⟨_, hcode⟩
  | unwritten hcode => exact ⟨_, hcode⟩
  | rejected hfault => exact ⟨_, hfault⟩

theorem Ended.errors_pos (h : Ended format p dir t tree file ending tree') (hfailed : ¬ ending.isWritten) :
    0 < ending.errors := by
  cases h with
  | written => exact absurd rfl hfailed
  | unwritten => exact Nat.one_pos
  | rejected hfault => exact errors_pos_of_compileFile hfault

theorem Ended.eq_written (h : Ended format p dir t tree file ending tree') {code : Text} {written : FileTree}
    (hcode : compileFile format t p.settings (p.inputPath file) = .ok (.ok code))
    (hwrite : writeOutput tree (p.outputPath dir file) code = .ok written) : ending = .written code := by
  cases h with
  | written hcode' => rw [Except.ok.inj (Except.ok.inj (hcode.symm.trans hcode'))]
  | unwritten hcode' hwrite' =>
    obtain rfl := Except.ok.inj (Except.ok.inj (hcode.symm.trans hcode'))
    cases hwrite.symm.trans hwrite'
  | rejected hfault => cases hcode.symm.trans hfault

theorem Ended.eq_rejected (h : Ended format p dir t tree file ending tree') {fault : ProjectFault}
    (hfault : compileFile format t p.settings (p.inputPath file) = .ok (.error fault)) : ending = .rejected fault := by
  cases h with
  | written hcode => cases hfault.symm.trans hcode
  | unwritten hcode => cases hfault.symm.trans hcode
  | rejected hfault' => rw [Except.error.inj (Except.ok.inj (hfault.symm.trans hfault'))]

theorem Ended.overlay (h : Ended format p dir t tree file ending tree') :
    Overlay tree tree' (ending.outputs (p.outputPath dir file)) := by
  have hdirect : Path.Direct (Path.elements (p.outputPath dir file)) := Path.direct_join ..
  cases h with
  | written _ hwrite => exact writeOutput_overlay hdirect hwrite
  | unwritten => exact tryDirs_overlay tree hdirect
  | rejected => exact .refl ..

/-- Building a file after others ends as it would alone, or with the fault of the file. -/
theorem buildStep_ended (lang : Language) (dir : Text) (ht : t.Regular) (hover : Overlay t tree outputs)
    (hother : ∀ o ∈ outputs, t.location o ≠ t.location (p.inputPath file)) (n : Nat) :
    (∃ e, compileFile format t p.settings (p.inputPath file) = .error e ∧
      buildStep lang format p dir (tree, n) file = .error e) ∨
    ∃ ending tree', Ended format p dir t tree file ending tree' ∧
      buildStep lang format p dir (tree, n) file = .ok (tree', n + ending.errors) := by
  have hdirect : Path.Direct (Path.elements (p.inputPath file)) := Path.direct_join ..
  rcases compileFile_overlay hover ht hdirect hother with ⟨cause, cause', hunreadable⟩ | hsame
  · obtain ⟨hold, hnew⟩ := hunreadable p.settings
    refine .inr ⟨_, tree, .rejected hold, ?_⟩
    rw [buildStep, hnew]
    rfl
  · have hsame := hsame p.settings
    rw [buildStep, hsame]
    cases hfile : compileFile format t p.settings (p.inputPath file) with
    | error e => exact .inl ⟨e, rfl, rfl⟩
    | ok result =>
      cases result with
      | error fault => exact .inr ⟨_, tree, .rejected hfile, rfl⟩
      | ok code =>
        dsimp only [Except.map, settle]
        cases hwrite : writeOutput tree (p.outputPath dir file) code with
        | error fault => exact .inr ⟨_, _, .unwritten hfile hwrite, rfl⟩
        | ok tree' => exact .inr ⟨_, tree', .written hfile hwrite, rfl⟩

/-! ### All files -/

/-- One file after the other. -/
inductive Builds [Language] (format : Formatter) (p : Project) (dir : Text) (t : FileTree) : FileTree →
    List (Text × Ending) → FileTree → Prop
  | nil (tree : FileTree) : Builds format p dir t tree [] tree
  | cons {tree tree' last : FileTree} {file : Text} {ending : Ending} {rest : List (Text × Ending)}
      (hfile : Ended format p dir t tree file ending tree') (hrest : Builds format p dir t tree' rest last) :
      Builds format p dir t tree ((file, ending) :: rest) last

theorem Builds.exists_ended (h : Builds format p dir t tree endings last) :
    ∀ e ∈ endings, ∃ before after, Ended format p dir t before e.1 e.2 after := by
  induction h with
  | nil => simp
  | cons hfile _ ih => exact List.forall_mem_cons.2 ⟨⟨_, _, hfile⟩, ih⟩

theorem Builds.exists_compiled (h : Builds format p dir t tree endings last) :
    ∀ f ∈ endings.map Prod.fst, ∃ result, compileFile format t p.settings (p.inputPath f) = .ok result := by
  rw [List.forall_mem_map]
  intro e he
  obtain ⟨before, after, hended⟩ := h.exists_ended e he
  exact hended.exists_compiled

theorem Builds.errors_pos (h : Builds format p dir t tree endings last) :
    ∀ e ∈ endings, ¬ e.2.isWritten → 0 < e.2.errors := by
  intro e he
  obtain ⟨before, after, hended⟩ := h.exists_ended e he
  exact hended.errors_pos

theorem Builds.overlay (h : Builds format p dir t tree endings last) :
    Overlay tree last (endings.flatMap fun e => e.2.outputs (p.outputPath dir e.1)) := by
  induction h with
  | nil tree => exact .refl ..
  | cons hfile _ ih => exact hfile.overlay.trans ih

/-- The code of a file stays where it was written. -/
theorem Builds.read (h : Builds format p dir t tree endings last)
    (hapart : (endings.map fun e => tree.location (p.outputPath dir e.1)).Nodup) {code : Text}
    (hmem : (file, .written code) ∈ endings) : last.read (p.outputPath dir file) = .ok code := by
  induction h with
  | nil => cases hmem
  | @cons tree tree' last f ending rest hfile hrest ih =>
    have hlocation := location_of_workingDir hfile.overlay.grows.workingDir
    obtain ⟨hfirst, hapart'⟩ := List.nodup_cons.1 hapart
    rcases List.mem_cons.1 hmem with heq | hmem
    · obtain ⟨rfl, rfl⟩ := Prod.mk.inj heq
      cases hfile with
      | written _ hwrite =>
        obtain ⟨-, q, hq, hcode, -⟩ := writeOutput_spec hwrite
        refine read_of_resolve (hrest.overlay.grows.resolve hq) ?_
        rcases hrest.overlay.entry q with hsame | ⟨o, ho, hplace⟩ | ⟨hnone, -⟩
        · exact hsame.trans hcode
        · -- no later file is written there
          obtain ⟨e, he, ho⟩ := List.mem_flatMap.1 ho
          obtain ⟨rfl, -⟩ := Ending.mem_outputs.1 ho
          refine absurd (List.mem_map.2 ⟨e, he, ?_⟩) hfirst
          show tree.location _ = tree.location _
          rw [← hlocation, ← hlocation, hplace, resolve_location hq]
        · cases hnone.symm.trans hcode
    · exact ih (by simpa only [hlocation] using hapart') hmem

/-- Nothing is written for a file that is rejected; a directory may be made above the output of another. -/
theorem Builds.kept (h : Builds format p dir t tree endings last)
    (hapart : (endings.map fun e => tree.location (p.outputPath dir e.1)).Nodup) {fault : ProjectFault} {q : Place}
    (hmem : (file, .rejected fault) ∈ endings) (hq : tree.location (p.outputPath dir file) = q) :
    last.entryAt q = tree.entryAt q ∨ tree.entryAt q = none ∧ last.isDirectory q ∧
      ∃ g ∈ endings.map Prod.fst, q <+: tree.location (p.outputPath dir g) ∧
        q ≠ tree.location (p.outputPath dir g) := by
  rcases h.overlay.entry q with hsame | ⟨o, ho, hplace⟩ | ⟨hnone, hdir, o, ho, habove⟩
  · exact .inl hsame
  · obtain ⟨e, he, ho⟩ := List.mem_flatMap.1 ho
    obtain ⟨rfl, hcompiled⟩ := Ending.mem_outputs.1 ho
    have heq : e = (file, .rejected fault) := List.inj_on_of_nodup_map hapart he hmem (hplace.trans hq.symm)
    exact absurd (congrArg Prod.snd heq) (hcompiled fault)
  · obtain ⟨e, he, ho⟩ := List.mem_flatMap.1 ho
    obtain ⟨rfl, -⟩ := Ending.mem_outputs.1 ho
    exact .inr ⟨hnone, hdir, e.1, List.mem_map_of_mem he, habove⟩

/-- The steps of a build along files: each file ends as it would alone, or one of them faults. -/
theorem foldlM_buildStep (lang : Language) (ht : t.Regular) (files : List Text) (hover : Overlay t tree outputs)
    (houtputs : ∀ o ∈ outputs, ∀ g ∈ files, t.location o ≠ t.location (p.inputPath g))
    (hfiles : ∀ f ∈ files, ∀ g ∈ files, t.location (p.outputPath dir f) ≠ t.location (p.inputPath g)) (n : Nat) :
    (∃ e, files.foldlM (buildStep lang format p dir) (tree, n) = .error e ∧
      ∃ f ∈ files, compileFile format t p.settings (p.inputPath f) = .error e) ∨
    ∃ endings last, endings.map Prod.fst = files ∧ Builds format p dir t tree endings last ∧
      files.foldlM (buildStep lang format p dir) (tree, n) = .ok (last, n + (endings.map fun e => e.2.errors).sum) := by
  induction files generalizing tree outputs n with
  | nil => exact .inr ⟨[], tree, rfl, .nil tree, rfl⟩
  | cons f files ih =>
    have hfirst := fun o ho => houtputs o ho f (List.mem_cons_self ..)
    rcases buildStep_ended lang dir ht hover hfirst n with ⟨e, hfault, hstep⟩ | ⟨ending, tree', hended, hstep⟩
    · refine .inl ⟨e, ?_, f, List.mem_cons_self .., hfault⟩
      rw [List.foldlM_cons, hstep]
      rfl
    · have hnext := ih (hover.trans hended.overlay) (fun o ho g hg => ?_)
        (fun f hf g hg => hfiles f (List.mem_cons_of_mem _ hf) g (List.mem_cons_of_mem _ hg)) (n + ending.errors)
      · rw [List.foldlM_cons, hstep]
        rcases hnext with ⟨e, hrun, f', hf', hfault⟩ | ⟨endings, last, hmap, hbuilds, hrun⟩
        · exact .inl ⟨e, hrun, f', List.mem_cons_of_mem _ hf', hfault⟩
        · refine .inr ⟨(f, ending) :: endings, last, by rw [List.map_cons, hmap], .cons hended hbuilds, ?_⟩
          rw [List.map_cons, List.sum_cons, ← Nat.add_assoc]
          exact hrun
      · rcases List.mem_append.1 ho with ho | ho
        · exact houtputs o ho g (List.mem_cons_of_mem _ hg)
        · obtain ⟨rfl, -⟩ := Ending.mem_outputs.1 ho
          have hplace := hfiles f (List.mem_cons_self ..) g (List.mem_cons_of_mem _ hg)
          exact hplace

/-- Nothing was written to the output path of a file.  Where nothing was, there can be a directory now, above the output
of another file. -/
def Untouched (t last : FileTree) (p : Project) (dir file : Text) : Prop :=
  let q := t.location (p.outputPath dir file)
  last.entryAt q = t.entryAt q ∨ t.entryAt q = none ∧ last.isDirectory q ∧
    ∃ g ∈ p.files, q <+: t.location (p.outputPath dir g) ∧ q ≠ t.location (p.outputPath dir g)

theorem sum_errors_eq_zero_iff (h : ∀ e ∈ endings, ¬ e.2.isWritten → 0 < e.2.errors) :
    (endings.map fun e => e.2.errors).sum = 0 ↔ ∀ e ∈ endings, e.2.isWritten := by
  induction endings with
  | nil => simp
  | cons e endings ih =>
    obtain ⟨hfirst, hrest⟩ := List.forall_mem_cons.1 h
    have hzero : e.2.errors = 0 ↔ e.2.isWritten := by
      cases hending : e.2 with
      | written => exact iff_of_true rfl rfl
      | unwritten => exact iff_of_false (by simp [Ending.errors]) (by simp [Ending.isWritten])
      | rejected fault =>
        rw [hending] at hfirst
        exact iff_of_false (Nat.ne_of_gt (hfirst (by simp [Ending.isWritten]))) (by simp [Ending.isWritten])
    rw [List.map_cons, List.sum_cons, Nat.add_eq_zero_iff, List.forall_mem_cons, ih hrest, hzero]

/-- The files of a build whose outputs are separate end as they would alone.  The build gives a result exactly if no
file faults, the code of each file that was written is there in the end, nothing is written for a rejected file, the
exit code is zero exactly if every file was written, and the errors that are counted are those of the files. -/
theorem build_files_apart {lang : Language} {format : Formatter} {level : LogLevel} {t : FileTree}
    {input output : Text} {noImports : Bool} {loaded : Project} (ht : t.Regular)
    (hload : Project.load t input = .ok loaded) :
    let p := if noImports then loaded.keepImports else loaded
    let dir := p.outputDir output
    let built := Run.build lang format input output noImports { tree := t, log := { level } }
    Separate t p dir →
      ((∃ o, built = .ok o) ↔ ∀ f ∈ p.files, ∃ result, compileFile format t p.settings (p.inputPath f) = .ok result) ∧
      ∀ o, built = .ok o → ∃ endings, endings.map Prod.fst = p.files ∧ Builds format p dir t t endings o.tree ∧
        (∀ f code, (f, .written code) ∈ endings → o.tree.read (p.outputPath dir f) = .ok code) ∧
        (∀ f fault, (f, .rejected fault) ∈ endings → Untouched t o.tree p dir f) ∧
        (o.exitCode = 0 ↔ ∀ e ∈ endings, e.2.isWritten) ∧
        o.log.errorCount = (endings.map fun e => e.2.errors).sum ∧
        ∀ e ∈ endings, ¬ e.2.isWritten → 0 < e.2.errors := by
  intro p dir built hseparate
  have hview : built.map Outcome.view =
      (p.files.foldlM (buildStep lang format p dir) (t, 0)).map fun s => (exitCodeOf s.2, s) :=
    build_view lang format output noImports { tree := t, log := { level } } hload
  rcases foldlM_buildStep lang ht p.files (.refl t []) (by simp) hseparate.inputs 0 with
    ⟨e, hrun, f, hf, hfault⟩ | ⟨endings, last, hfiles, hbuilds, hrun⟩
  · rw [hrun] at hview
    cases hbuilt : built with
    | error e' =>
      refine ⟨iff_of_false (by simp) fun h => ?_, by simp⟩
      obtain ⟨result, hresult⟩ := h f hf
      cases hfault.symm.trans hresult
    | ok o =>
      rw [hbuilt] at hview
      cases hview
  · rw [hrun, Nat.zero_add] at hview
    have hcompiled := hfiles ▸ hbuilds.exists_compiled
    have hpositive := hbuilds.errors_pos
    have hapart : (endings.map fun e => t.location (p.outputPath dir e.1)).Nodup := by
      have := hseparate.outputs
      rwa [← hfiles, List.map_map] at this
    cases hbuilt : built with
    | error e =>
      rw [hbuilt] at hview
      cases hview
    | ok o =>
      rw [hbuilt] at hview
      obtain ⟨hexit, hrest⟩ := Prod.mk.inj (Except.ok.inj hview)
      obtain ⟨htree, hcount⟩ := Prod.mk.inj hrest
      refine ⟨iff_of_true ⟨o, rfl⟩ hcompiled, fun o' ho' => ?_⟩
      obtain rfl := Except.ok.inj ho'
      refine ⟨endings, hfiles, htree ▸ hbuilds, fun f code hmem => ?_, fun f fault hmem => ?_, ?_, hcount, hpositive⟩
      · exact htree ▸ hbuilds.read hapart hmem
      · have hkept := hbuilds.kept hapart hmem rfl
        rw [hfiles, ← htree] at hkept
        exact hkept
      · rw [hexit, exitCodeOf, ← sum_errors_eq_zero_iff hpositive]
        split <;> omega

/-- Two declaration files. -/
def pair (a b : Text) : FileTree :=
  ({ workingDir := ["w"] } : FileTree).addFile ["w", "a.mt"] a |>.addFile ["w", "b.mt"] b

/-- The project of both. -/
def pairProject : Project := ⟨{}, none, ".", ["a.mt", "b.mt"]⟩

theorem load_pair {a b : Text} (h : Settings.forDirectory (pair a b) "." = .ok ({}, none)) :
    Project.load (pair a b) "." = .ok pairProject := by
  have hstat : (pair a b).stat "." = .ok .directory := rfl
  have hplace : (pair a b).resolve "." = .ok ["w"] := rfl
  have hfound : ((pair a b).files.filterMap fun q => if List.isPrefixOf (["w"] : Place) q.1 then
      some (Text.join [Path.slash] (q.1.drop 1)) else none) = ["a.mt", "b.mt"] := rfl
  have hsorted : List.mergeSort (["a.mt", "b.mt"] : List Text) Text.le = ["a.mt", "b.mt"] :=
    List.mergeSort_of_pairwise (by decide +kernel)
  have hbelow : (pair a b).filesBelow "." = .ok ["a.mt", "b.mt"] :=
    bind_eq_ok.2 ⟨["w"], of_eq_ok.2 hplace, congrArg Except.ok
      ((congrArg (List.mergeSort · Text.le) hfound).trans hsorted)⟩
  have hcollect : Project.collect (pair a b) "." = .ok ["a.mt", "b.mt"] :=
    bind_eq_ok.2 ⟨_, mapError_eq_ok.2 hbelow, by decide +kernel⟩
  have hinputs : Project.inputs (pair a b) "." = .ok (".", ["a.mt", "b.mt"]) :=
    bind_eq_ok.2 ⟨.directory, mapError_eq_ok.2 hstat, bind_eq_ok.2 ⟨_, hcollect, rfl⟩⟩
  refine bind_eq_ok.2 ⟨_, hinputs, ?_⟩
  dsimp only
  rw [h]
  rfl

theorem separate_pair (a b : Text) : Separate (pair a b) pairProject "." := by
  have h : Separate { workingDir := ["w"] } pairProject "." := ⟨by decide +kernel, by decide +kernel⟩
  have hlocation := @location_of_workingDir { workingDir := ["w"] } (pair a b) rfl
  exact ⟨by simpa only [hlocation] using h.outputs, by simpa only [hlocation] using h.inputs⟩

theorem exists_writable {format : Formatter} {t : FileTree} {settings : Settings} {path out : Text}
    (h : ((compileFile format t settings path).map fun result => result.toOption.map
      fun code => (writeOutput t out code).isOk) =
      .ok (some true)) :
    ∃ code, compileFile format t settings path = .ok (.ok code) ∧ ∃ t', writeOutput t out code = .ok t' := by
  cases hfile : compileFile format t settings path with
  | error e =>
    rw [hfile] at h
    cases h
  | ok result =>
    rw [hfile] at h
    cases result with
    | error f => cases h
    | ok code =>
      refine ⟨code, rfl, ?_⟩
      cases hwrite : writeOutput t out code with
      | ok t' => exact ⟨t', rfl⟩
      | error f =>
        dsimp only [Except.map, Except.toOption, Option.map] at h
        rw [hwrite] at h
        cases h

/-- The first file is written, although the second one is rejected. -/
theorem build_files_apart_pair : ∃ o code, Run.build .english Host.format "." [] false
      { tree := pair "package p\n" "package\n", log := { level := .silent } } = .ok o ∧
    @compileFile .english Host.format (pair "package p\n" "package\n") {} "a.mt" = .ok (.ok code) ∧
    o.tree.read "a_mt.go" = .ok code ∧ o.exitCode ≠ 0 := by
  have hsettings : Settings.forDirectory (pair "package p\n" "package\n") "." = .ok ({}, none) := by decide +kernel
  have hload := load_pair hsettings
  have hregular : (pair "package p\n" "package\n").Regular := ⟨by decide +kernel, by decide +kernel⟩
  have hseparate := separate_pair "package p\n" "package\n"
  have hfirst := @exists_writable .english Host.format (pair "package p\n" "package\n") {} "a.mt" "a_mt.go"
    (by decide +kernel)
  have hsecond : ((@compileFile .english Host.format (pair "package p\n" "package\n") {} "b.mt").map
      fun result => result.isOk) = .ok false := by decide +kernel
  have hinputs : pairProject.inputPath "a.mt" = "a.mt" ∧ pairProject.inputPath "b.mt" = "b.mt" := by decide +kernel
  have houtput : pairProject.outputPath "." "a.mt" = "a_mt.go" := by decide +kernel
  generalize pair "package p\n" "package\n" = t at *
  obtain ⟨code, hcode, t', hwrite⟩ := hfirst
  obtain ⟨fault, hfault⟩ : ∃ fault, @compileFile .english Host.format t {} "b.mt" = .ok (.error fault) := by
    rcases hfile : @compileFile .english Host.format t {} "b.mt" with e | (fault | code) <;> rw [hfile] at hsecond
    · cases hsecond
    · exact ⟨fault, rfl⟩
    · cases hsecond
  obtain ⟨hresult, hbuild⟩ := @build_files_apart .english Host.format .silent t "."
    [] false pairProject hregular hload hseparate
  obtain ⟨o, ho⟩ := hresult.2 (List.forall_mem_cons.2 ⟨⟨_, hinputs.1 ▸ hcode⟩, List.forall_mem_cons.2
    ⟨⟨_, hinputs.2 ▸ hfault⟩, by simp⟩⟩)
  obtain ⟨endings, hfiles, hbuilds, hread, -, hexit, -⟩ := hbuild o ho
  refine ⟨o, code, ho, hcode, ?_, fun hzero => ?_⟩
  · cases hbuilds with
    | nil => cases hfiles
    | @cons _ tree' _ f ending rest hended _ =>
      obtain ⟨rfl, -⟩ := List.cons.inj hfiles
      obtain rfl := hended.eq_written (hinputs.1.symm ▸ hcode) (houtput.symm ▸ hwrite)
      exact houtput ▸ hread _ _ (List.mem_cons_self ..)
  · obtain ⟨e, he, hname⟩ : ∃ e ∈ endings, e.1 = Text.ofString "b.mt" := by
      rw [← List.mem_map, hfiles]
      simp [pairProject]
    obtain ⟨before, after, hended⟩ := hbuilds.exists_ended e he
    have hwritten := hexit.1 hzero e he
    rw [hname] at hended
    rw [hended.eq_rejected (hinputs.2.symm ▸ hfault)] at hwritten
    cases hwritten

/-- A file on which the scanner faults ends the build, so that the other one is not written. -/
theorem build_stops_at_fault : (pair "\"\\" "package p\n").Regular ∧
    Project.load (pair "\"\\" "package p\n") "." = .ok pairProject ∧
    Separate (pair "\"\\" "package p\n") pairProject "." ∧
    (∃ code, @compileFile .english Host.format (pair "\"\\" "package p\n") {} "b.mt" = .ok (.ok code) ∧
      ∃ t', writeOutput (pair "\"\\" "package p\n") "b_mt.go" code = .ok t') ∧
    Run.build .english Host.format "." [] false { tree := pair "\"\\" "package p\n", log := { level := .silent } } =
      .error (.cutBeyondEnd 3 2) := by
  have hsettings : Settings.forDirectory (pair "\"\\" "package p\n") "." = .ok ({}, none) := by decide +kernel
  refine ⟨⟨by decide +kernel, by decide +kernel⟩, load_pair hsettings, separate_pair ..,
    exists_writable (by decide +kernel), ?_⟩
  have hview := build_view .english Host.format [] false
    { tree := pair "\"\\" "package p\n", log := { level := .silent } } (load_pair hsettings)
  have hrun : pairProject.files.foldlM (buildStep .english Host.format pairProject ".") (pair "\"\\" "package p\n", 0) =
      .error (.cutBeyondEnd 3 2) := by decide +kernel
  cases hbuilt : Run.build .english Host.format "." [] false
    { tree := pair "\"\\" "package p\n", log := { level := .silent } } with
  | error e =>
    rw [hbuilt] at hview
    exact congrArg Except.error (Except.error.inj (hview.trans (congrArg (Except.map _) hrun)))
  | ok o =>
    rw [hbuilt] at hview
    cases hview.trans (congrArg (Except.map _) hrun)

end Run

end MeaningForest

import MeaningForest.Proofs.Runs

/-!
# Silent runs

The level of a log decides what is printed and nothing else: a run ends with the same fault, or with the same exit code,
tree and number of errors, at every level (`Run.build_view_congr`, `Run.check_view_congr`).

At the silent level nothing is printed step by step (`Log.Mute`), and a run that succeeds, or whose input cannot be
loaded, prints nothing at all.  A run that fails on its files prints one line at its end, which is not left to the log
(`Run.silent_iff`).
-/

namespace MeaningForest

/-! ### Mute logs -/

namespace Log

/-- A log of the silent level on which nothing was printed. -/
structure Mute (l : Log) : Prop where
  level : l.level = .silent
  printed : l.printed = []

namespace Mute

variable {l : Log}

theorem fresh : Mute { level := .silent } := ⟨rfl, rfl⟩

theorem printAt (h : l.Mute) {m : LogLevel} (hm : m ≠ .silent) (t : Text) : (l.printAt m t).Mute := by
  have hhidden : l.level.shows m = false := by
    rw [h.level]
    cases m with
    | silent => exact absurd rfl hm
    | error | warning | verbose => rfl
  rw [Log.printAt, hhidden]
  exact h

theorem info (h : l.Mute) (tag message : Text) : (l.info tag message).Mute := h.printAt (by decide) _

theorem error (h : l.Mute) (tag message : Text) : (l.error tag message).Mute := by
  have hcounted : Mute { l with errorCount := l.errorCount + 1 } := ⟨h.level, h.printed⟩
  exact hcounted.printAt (by decide) _

theorem diagnostic (h : l.Mute) (d : Diagnostic) : (l.diagnostic d).Mute := by
  have herror : Mute { l with errorCount := l.errorCount + 1 } := ⟨h.level, h.printed⟩
  have hwarning : Mute { l with warningCount := l.warningCount + 1 } := ⟨h.level, h.printed⟩
  rw [Log.diagnostic]
  split
  · exact hwarning.printAt (by decide) _
  · exact herror.printAt (by decide) _

theorem diagnostics (h : l.Mute) (ds : List Diagnostic) : (l.diagnostics ds).Mute := by
  induction ds generalizing l with
  | nil => exact h
  | cons d ds ih => exact ih (h.diagnostic d)

theorem addSource (h : l.Mute) (path source : Text) : (l.addSource path source).Mute := ⟨h.level, h.printed⟩

theorem summary (h : l.Mute) : l.summary.Mute := h.printAt (by decide) _

end Mute

end Log

namespace Run

variable {lang : Language} {format : Formatter} {p : Project} {dir file tag success : Text} {r r' : Run}

/-- A run whose log is mute. -/
def Mute (r : Run) : Prop := r.log.Mute

namespace Mute

theorem info (h : r.Mute) (tag message : Text) : Mute { r with log := r.log.info tag message } :=
    Log.Mute.info h tag message

theorem report (h : r.Mute) (f : ProjectFault) : (Run.report lang r.log f).Mute := by
  rw [Run.report]
  split
  · exact Log.Mute.diagnostics h _
  · exact Log.Mute.error h _ _

theorem announce (lang : Language) (h : r.Mute) (p : Project) : Mute { r with log := Run.announce lang p r.log } := by
  rw [Run.announce]
  split
  · exact h.info ..
  · exact h.info ..

theorem compile (h : r.Mute) {settings : Settings} {path : Text} {result : Except ProjectFault Text}
    (hrun : r.compile format settings path = .ok (result, r')) : r'.Mute := by
  rw [Run.compile] at hrun
  split at hrun
  · obtain ⟨-, rfl⟩ := Prod.mk.inj (Except.ok.inj hrun)
    exact h
  · obtain ⟨compiled, -, hrun⟩ := bind_eq_ok.1 hrun
    obtain ⟨-, rfl⟩ := Prod.mk.inj (Except.ok.inj hrun)
    exact Log.Mute.addSource h _ _

theorem buildFile (h : r.Mute) (hrun : Run.buildFile lang format p dir r file = .ok r') : r'.Mute := by
  obtain ⟨⟨result, r₁⟩, hcompile, hrun⟩ := bind_eq_ok.1 hrun
  have h₁ : r₁.Mute := (h.info ..).compile hcompile
  dsimp only at hrun
  split at hrun
  · obtain rfl := Except.ok.inj hrun
    exact h₁.report _
  · split at hrun
    · obtain rfl := Except.ok.inj hrun
      exact Log.Mute.error h₁ _ _
    · obtain rfl := Except.ok.inj hrun
      exact h₁

theorem checkFile (h : r.Mute) (hrun : Run.checkFile lang format p r file = .ok r') : r'.Mute := by
  obtain ⟨⟨result, r₁⟩, hcompile, hrun⟩ := bind_eq_ok.1 hrun
  have h₁ : r₁.Mute := (h.info ..).compile hcompile
  dsimp only at hrun
  split at hrun
  · obtain rfl := Except.ok.inj hrun
    exact h₁.report _
  · obtain rfl := Except.ok.inj hrun
    exact h₁

theorem foldlM {step : Run → Text → Except Fault Run} (hstep : ∀ r file r', Mute r → step r file = .ok r' → r'.Mute)
    {files : List Text} (h : r.Mute) (hrun : files.foldlM step r = .ok r') : r'.Mute :=
  foldlM_keeps (P := fun _ => Mute) (fun _ file _ s s' _ hs hs' => hstep s file s' hs hs') h hrun

end Mute

/-! ### Ends -/

/-- The line at the end of a run that failed on its files. -/
def failureLine (lang : Language) (errors : Nat) : Text :=
  messageLine "meantree" (Notice.compileFailed.word lang [.number errors])

theorem failureLine_ne_nil (lang : Language) (errors : Nat) : failureLine lang errors ≠ [] := by
  simp [failureLine, messageLine, Text.ofString]

/-- What is printed by a silent run: nothing if it succeeds, and else the line at its end. -/
theorem Mute.printed_finish (h : r.Mute) : (r.finish lang tag success).log.printed =
    if (r.finish lang tag success).exitCode = 0 then []
    else failureLine lang (r.finish lang tag success).log.errorCount := by
  have hsummary := Log.Mute.summary h
  rw [finish]
  split
  · rw [Log.print, hsummary.printed]
    rfl
  · exact (hsummary.info tag success).printed

theorem Mute.printed_refuse (h : r.Mute) (f : ProjectFault) : (r.refuse lang f).log.printed = [] :=
  (Log.Mute.error h _ _).printed

theorem refuse_view_congr (lang : Language) (h : r.view = r'.view) (f : ProjectFault) :
    (r.refuse lang f).view = (r'.refuse lang f).view := by
  obtain ⟨htree, hcount⟩ := Prod.mk.inj h
  rw [refuse, refuse, Outcome.view, Outcome.view, Log.error_errorCount, Log.error_errorCount, htree, hcount]

section

variable (lang : Language) (format : Formatter) (input output : Text) (noImports : Bool) (h : r.view = r'.view)

include h

/-- A build depends on the tree and the number of errors at its start only. -/
theorem build_view_congr : (build lang format input output noImports r).map Outcome.view =
    (build lang format input output noImports r').map Outcome.view := by
  obtain ⟨htree, -⟩ := Prod.mk.inj h
  cases hload : Project.load r.tree input with
  | error f =>
    have hload' := htree ▸ hload
    rw [build, build, hload, hload']
    exact congrArg Except.ok (refuse_view_congr lang h f)
  | ok loaded =>
    have hbuild := build_view lang format output noImports r hload
    rw [h] at hbuild
    exact hbuild.trans (build_view lang format output noImports r' (htree ▸ hload)).symm

/-- A check depends on the tree and the number of errors at its start only. -/
theorem check_view_congr : (check lang format input r).map Outcome.view =
    (check lang format input r').map Outcome.view := by
  obtain ⟨htree, -⟩ := Prod.mk.inj h
  cases hload : Project.load r.tree input with
  | error f =>
    have hload' := htree ▸ hload
    rw [check, check, hload, hload']
    exact congrArg Except.ok (refuse_view_congr lang h f)
  | ok loaded =>
    have hcheck := check_view lang format r hload
    rw [h] at hcheck
    exact hcheck.trans (check_view lang format r' (htree ▸ hload)).symm

end

/-! ### Silent runs -/

/-- What a silent run on an input path prints: nothing if it succeeds or the input cannot be loaded, and else the line
at its end. -/
structure Silent (lang : Language) (t : FileTree) (input : Text) (o : Outcome) : Prop where
  printed_eq_nil : o.log.printed = [] ↔ o.exitCode = 0 ∨ ∃ f, Project.load t input = .error f
  printed_eq : o.log.printed ≠ [] → o.log.printed = failureLine lang o.log.errorCount

variable {input output : Text} {noImports : Bool} {o : Outcome}

theorem Mute.silent_refuse (h : r.Mute) {f : ProjectFault} (hload : Project.load r.tree input = .error f) :
    Silent lang r.tree input (r.refuse lang f) :=
  ⟨iff_of_true (h.printed_refuse f) (.inr ⟨f, hload⟩), fun hne => absurd (h.printed_refuse f) hne⟩

theorem Mute.silent_finish (h : r'.Mute) {t : FileTree} {loaded : Project} (hload : Project.load t input = .ok loaded) :
    Silent lang t input (r'.finish lang tag success) := by
  have hprinted : (r'.finish lang tag success).log.printed = _ := h.printed_finish
  by_cases hexit : (r'.finish lang tag success).exitCode = 0
  · rw [if_pos hexit] at hprinted
    exact ⟨iff_of_true hprinted (.inl hexit), fun hne => absurd hprinted hne⟩
  · rw [if_neg hexit] at hprinted
    refine ⟨iff_of_false ?_ ?_, fun _ => hprinted⟩
    · rw [hprinted]
      exact failureLine_ne_nil lang _
    · rintro (hzero | ⟨f, hfault⟩)
      · exact hexit hzero
      · cases hload.symm.trans hfault

theorem Mute.silent_build (h : r.Mute) (hrun : build lang format input output noImports r = .ok o) :
    Silent lang r.tree input o := by
  rw [build] at hrun
  cases hload : Project.load r.tree input with
  | error f =>
    rw [hload] at hrun
    obtain rfl := Except.ok.inj hrun
    exact h.silent_refuse hload
  | ok loaded =>
    rw [hload] at hrun
    obtain ⟨r', hfiles, hrun⟩ := bind_eq_ok.1 hrun
    obtain rfl := Except.ok.inj hrun
    have hstart := h.announce lang (if noImports then loaded.keepImports else loaded)
    exact (hstart.foldlM (fun _ _ _ hr => hr.buildFile) hfiles).silent_finish hload

theorem Mute.silent_check (h : r.Mute) (hrun : check lang format input r = .ok o) : Silent lang r.tree input o := by
  rw [check] at hrun
  cases hload : Project.load r.tree input with
  | error f =>
    rw [hload] at hrun
    obtain rfl := Except.ok.inj hrun
    exact h.silent_refuse hload
  | ok loaded =>
    rw [hload] at hrun
    obtain ⟨r', hfiles, hrun⟩ := bind_eq_ok.1 hrun
    obtain rfl := Except.ok.inj hrun
    exact ((h.announce lang loaded).foldlM (fun _ _ _ hr => hr.checkFile) hfiles).silent_finish hload

/-- A silent run ends with the fault, or with the exit code, tree and number of errors, of the run at any other level,
and it prints nothing, unless it fails on files that it has loaded: then it prints the line at its end. -/
theorem silent_iff (lang : Language) (format : Formatter) (t : FileTree) (input output : Text) (noImports : Bool)
    (level : LogLevel) :
    (build lang format input output noImports { tree := t, log := { level := .silent } }).map Outcome.view =
      (build lang format input output noImports { tree := t, log := { level } }).map Outcome.view ∧
    (check lang format input { tree := t, log := { level := .silent } }).map Outcome.view =
      (check lang format input { tree := t, log := { level } }).map Outcome.view ∧
    ∀ o, build lang format input output noImports { tree := t, log := { level := .silent } } = .ok o ∨
        check lang format input { tree := t, log := { level := .silent } } = .ok o → Silent lang t input o := by
  refine ⟨build_view_congr _ _ _ _ _ rfl, check_view_congr _ _ _ rfl, fun o ho => ?_⟩
  have hmute : Mute { tree := t, log := { level := .silent } } := Log.Mute.fresh
  rcases ho with hbuild | hcheck
  · exact hmute.silent_build hbuild
  · exact hmute.silent_check hcheck

/-- One declaration file, which is cut off. -/
def cutOff : FileTree := ({ workingDir := ["w"] } : FileTree).addFile ["w", "a.mt"] "package\n"

/-- A silent check of a file that is rejected is not silent. -/
theorem check_breaks_silence : (check .english Host.format "a.mt" { tree := cutOff, log := { level := .silent } }).map
    (fun o => (o.exitCode, o.log.printed)) = .ok (1, Text.ofString "meantree compilation failed with 1 errors\n") := by
  decide +kernel

theorem silent_iff_cutOff :
    ∃ o, check .english Host.format "a.mt" { tree := cutOff, log := { level := .silent } } = .ok o ∧
    (check .english Host.format "a.mt" { tree := cutOff, log := { level := .verbose } }).map Outcome.view = .ok o.view ∧
    Silent .english cutOff "a.mt" o := by
  have hok : (check .english Host.format "a.mt" { tree := cutOff, log := { level := .silent } }).isOk = true := by
    decide +kernel
  obtain ⟨-, hlevel, hsilent⟩ := silent_iff .english Host.format cutOff "a.mt" [] false .verbose
  cases hrun : check .english Host.format "a.mt" { tree := cutOff, log := { level := .silent } } with
  | error e => simp [hrun, Except.isOk, Except.toBool] at hok
  | ok o =>
    rw [hrun] at hlevel
    exact ⟨o, rfl, hlevel.symm, hsilent o (.inr hrun)⟩

end Run

end MeaningForest

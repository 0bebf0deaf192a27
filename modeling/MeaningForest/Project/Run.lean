import MeaningForest.Log
import MeaningForest.Project.Basic

/-!
# Runs

A run builds or checks a project.  A build compiles each file and writes what was generated; a check compiles only.  A
file that fails is reported and the run goes on with the next one.  The run fails if an error was counted.
-/

namespace MeaningForest

/-- The state of a run. -/
structure Run where
  tree : FileTree
  log : Log := {}
  /-- The number of files written. -/
  written : Nat := 0
  deriving DecidableEq, Repr

/-- What a run leaves. -/
structure Outcome where
  exitCode : Nat
  tree : FileTree
  log : Log
  deriving DecidableEq, Repr

namespace Run

/-- Reports why a file is not compiled: by its diagnostics if it has some. -/
def report (lang : Language) (log : Log) (f : ProjectFault) : Log :=
  if f.isDiagnosed then log.diagnostics f.diagnostics else log.error "Compile Error" (f.message lang)

/-- Says which settings are used. -/
def announce (lang : Language) (p : Project) (log : Log) : Log :=
  match p.settingsPath with
  | some path => log.info "Config" (Notice.usingConfig.word lang [path])
  | none => log.info "Config" (Notice.noConfig.word lang [Settings.fileName])

/-- Compiles the file at a path and remembers its text for excerpts. -/
def compile [Language] (format : Formatter) (settings : Settings) (path : Text) (r : Run) :
    Except Fault (Except ProjectFault Text × Run) := do
  match readDeclarations r.tree path with
  | .error f => return (.error f, r)
  | .ok text => return (← compileText format settings path text, { r with log := r.log.addSource path text })

/-- Builds one file of a project. -/
def buildFile (lang : Language) (format : Formatter) (p : Project) (dir : Text) (r : Run) (file : Text) :
    Except Fault Run := do
  let input := p.inputPath file
  let output := p.outputPath dir file
  let r := { r with log := r.log.info "Build" (Notice.generating.word lang [input, output]) }
  let (result, r) ← r.compile format p.settings input
  match result with
  | .error f => return { r with log := report lang r.log f }
  | .ok code =>
    match writeOutput r.tree output code with
    | .error f =>
      -- the directories that were made for it stay
      let tree := (r.tree.tryDirs (Path.dir output)).1
      return { r with tree, log := r.log.error "Output Error" (f.message lang) }
    | .ok tree => return { r with tree, written := r.written + 1 }

/-- Checks one file of a project. -/
def checkFile (lang : Language) (format : Formatter) (p : Project) (r : Run) (file : Text) : Except Fault Run := do
  let input := p.inputPath file
  let r := { r with log := r.log.info "Check" (Notice.checking.word lang [input]) }
  let (result, r) ← r.compile format p.settings input
  match result with
  | .error f => return { r with log := report lang r.log f }
  | .ok _ => return r

/-- Ends a run with the summary and a last message.  That of a failed run is printed at every level. -/
def finish (lang : Language) (tag success : Text) (r : Run) : Outcome :=
  let log := r.log.summary
  if 0 < log.errorCount then
    ⟨1, r.tree, log.print (messageLine "meantree" (Notice.compileFailed.word lang [.number log.errorCount]))⟩
  else ⟨0, r.tree, log.info tag success⟩

/-- Ends a run whose input cannot be loaded. -/
def refuse (lang : Language) (r : Run) (f : ProjectFault) : Outcome :=
  ⟨1, r.tree, r.log.error "Input Error" (f.message lang)⟩

/-- Builds the project of an input path. -/
def build (lang : Language) (format : Formatter) (input output : Text) (noImports : Bool) (r : Run) :
    Except Fault Outcome := do
  match Project.load r.tree input with
  | .error f => return r.refuse lang f
  | .ok p =>
    let p := if noImports then p.keepImports else p
    let dir := p.outputDir output
    let r ← p.files.foldlM (buildFile lang format p dir) { r with log := announce lang p r.log }
    return r.finish lang "Build" (Notice.buildCompleted.word lang [.number r.written, dir])

/-- Checks the project of an input path. -/
def check (lang : Language) (format : Formatter) (input : Text) (r : Run) : Except Fault Outcome := do
  match Project.load r.tree input with
  | .error f => return r.refuse lang f
  | .ok p =>
    let r ← p.files.foldlM (checkFile lang format p.keepImports) { r with log := announce lang p r.log }
    return r.finish lang "Check" (Notice.checkCompleted.word lang [.number p.files.length])

end Run

end MeaningForest

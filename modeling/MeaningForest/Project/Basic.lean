import MeaningForest.Compilation.Basic
import MeaningForest.Settings.Load

/-!
# Projects

A project is what one run compiles: the declaration files of a directory, or a single file, with the settings that hold
there.  This module has the steps on files: loading a project, compiling one of its files and writing what was
generated.
-/

namespace MeaningForest

/-- Why a step on the files of a project fails. -/
inductive ProjectFault where
  /-- The input cannot be looked at. -/
  | inaccessible (path : Text) (cause : FileFault)
  /-- The input has no declaration files. -/
  | noFiles (dir : Text)
  | badSettings (path : Text) (cause : SettingsFault)
  /-- A declaration file cannot be read. -/
  | unreadable (path : Text) (cause : FileFault)
  /-- A declaration file is not compiled. -/
  | rejected (path : Text) (cause : Rejection)
  /-- An output directory cannot be made. -/
  | noDirectory (path : Text) (cause : FileFault)
  /-- A generated file cannot be written. -/
  | notWritten (path : Text) (cause : FileFault)
  deriving DecidableEq, Repr

namespace ProjectFault

/-- The diagnostics that a fault carries. -/
def diagnostics : ProjectFault → List Diagnostic
  | rejected _ cause => cause.diagnostics
  | _ => []

/-- Whether a fault is made of diagnostics. -/
def isDiagnosed : ProjectFault → Bool
  | rejected _ (.broken ..) => false
  | rejected .. => true
  | _ => false

/-- A notice about a path, followed by its cause. -/
private def because (lang : Language) (n : Notice) (path cause : Text) : Text :=
  n.word lang [path] ++ Text.ofString ": " ++ cause

/-- The wording of a fault. -/
def message (lang : Language) : ProjectFault → Text
  | inaccessible path cause => because lang .cannotAccess path cause.message
  | noFiles dir => Notice.noInputFiles.word lang [dir]
  | badSettings path cause => because lang .cannotLoad path cause.message
  | unreadable path cause => because lang .cannotReadFile path cause.message
  | rejected path cause =>
    let count : Argument := .number cause.diagnostics.length
    match cause with
    | .unreadable .. => Notice.parseFailed.word lang [path, count]
    | .faulty .. => Notice.transpileFailed.word lang [path, count]
    | .broken .. => cause.message lang
  | noDirectory path cause => because lang .cannotCreateDir path cause.message
  | notWritten path cause => because lang .cannotWriteFile path cause.message

end ProjectFault

variable [Language]

/-- The form of the declaration file at a path. -/
def DeclFormat.ofPath (path : Text) : DeclFormat := if Path.isDocument path then .document else .source

/-- Compiles the text of the declaration file at a path. -/
def compileText (format : Formatter) (settings : Settings) (path text : Text) :
    Except Fault (Except ProjectFault Text) := do
  match (← (DeclFormat.ofPath path).read path text).accept path with
  | .error r => return .error (.rejected path r)
  | .ok file => return (← file.compile format settings).mapError (.rejected path)

/-- The text of the declaration file at a path. -/
def readDeclarations (t : FileTree) (path : Text) : Except ProjectFault Text :=
  (t.read path).mapError (.unreadable path)

/-- Compiles the declaration file at a path. -/
def compileFile (format : Formatter) (t : FileTree) (settings : Settings) (path : Text) :
    Except Fault (Except ProjectFault Text) :=
  match readDeclarations t path with
  | .error f => .ok (.error f)
  | .ok text => compileText format settings path text

/-- A declaration document that cannot be read. -/
structure UnreadDocument where
  path : Text
  cause : FileFault
  deriving DecidableEq, Repr

/-- The wording for a document that cannot be read. -/
def UnreadDocument.message (u : UnreadDocument) : Text :=
  "reading declarations " ++ u.path ++ ": " ++ u.cause.message

/-- Reads the declaration document at a path, whatever its name. -/
def DeclFile.loadDocument (t : FileTree) (path : Text) : Except Fault (Except UnreadDocument ReadResult) :=
  match t.read path with
  | .ok text => return .ok (← DeclFile.readDocument path text)
  | .error cause => return .error ⟨path, cause⟩

/-- Writes a generated file and makes the directories it needs. -/
def writeOutput (t : FileTree) (path code : Text) : Except ProjectFault FileTree := do
  let dir := Path.dir path
  let t ← (t.makeDirs dir).mapError (.noDirectory dir)
  (t.write path code).mapError (.notWritten path)

/-- What one run compiles. -/
structure Project where
  settings : Settings
  /-- The path of the settings file, if there is one. -/
  settingsPath : Option Text
  /-- The directory of the files. -/
  root : Text
  /-- The declaration files, as paths from the root. -/
  files : List Text
  deriving DecidableEq, Repr

namespace Project

/-- The declaration files of a directory, in order. -/
def collect (t : FileTree) (dir : Text) : Except ProjectFault (List Text) := do
  let files ← (t.filesBelow dir).mapError (.inaccessible dir)
  match files.filter Path.isDeclaration with
  | [] => .error (.noFiles dir)
  | files => .ok files

/-- The root and the files of an input path. -/
def inputs (t : FileTree) (input : Text) : Except ProjectFault (Text × List Text) := do
  match ← (t.stat input).mapError (.inaccessible input) with
  | .directory => return (input, ← collect t input)
  | .file _ => return (Path.dir input, [Path.base input])

/-- Loads the project of an input path. -/
def load (t : FileTree) (input : Text) : Except ProjectFault Project := do
  let (root, files) ← inputs t input
  match Settings.forDirectory t root with
  | .ok (settings, path) => return ⟨settings, path, root, files⟩
  | .error f => .error (.badSettings ((Settings.find? t root).getD []) f)

/-- The path of a declaration file. -/
def inputPath (p : Project) (file : Text) : Text := Path.join p.root file

/-- Where generated files go: the given directory, else that of the settings, else that of the input. -/
def outputDir (p : Project) (output : Text) : Text :=
  if !output.isEmpty then output else if !p.settings.dir.isEmpty then p.settings.dir else p.root

/-- The path of the file generated from a declaration file. -/
def outputPath (p : Project) (dir file : Text) : Text := Path.join dir (Path.output file p.settings.suffix)

/-- The project with imports left as they are. -/
def keepImports (p : Project) : Project := { p with settings := { p.settings with fixImports := false } }

end Project

end MeaningForest

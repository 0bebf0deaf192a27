import MeaningForest.Catalog.Selection
import MeaningForest.CommandLine
import MeaningForest.Host.Format

/-!
# The program

Reads the files that a command line needs, runs it on them and writes the files that changed.
-/

namespace MeaningForest.Program

/-- The name of a place on the disk. -/
def diskName (p : Place) : String := (String.fromUTF8? ⟨(Path.ofElements true p).toArray⟩).getD ""

/-- The place that an absolute path leads to. -/
def placeOf (path : Text) : Place := (Path.elements (Path.clean path)).filter (!·.isEmpty)

/-- Adds what stands at a place on the disk, with everything below it if asked. -/
partial def addFromDisk (deep : Bool) (t : FileTree) (p : Place) : IO FileTree := do
  match ← (IO.FS.realPath (diskName p)).toBaseIO with
  | .error _ => return t
  | .ok path =>
    if ← path.isDir then
      let mut t := t.addDirectory p
      if deep then
        for e in ← path.readDir do
          t ← addFromDisk deep t (p ++ [Text.ofString e.fileName])
      return t
    else if ← path.pathExists then return t.addFile p (← IO.FS.readBinFile path).toList
    else return t

/-- Adds the entries on the way to a place, and the settings files beside them. -/
def addSpine (t : FileTree) (p : Place) : IO FileTree := do
  let mut t := t
  for q in FileTree.directoriesAbove p ++ [p] do
    t ← addFromDisk false t q
    t ← addFromDisk false t (q ++ [Settings.fileName])
  return t

/-- Adds what a run on an input path can look at. -/
def addInput (t : FileTree) (input output : Text) : IO FileTree := do
  let place := placeOf (t.absolute input)
  let t ← addSpine t place
  let t ← addFromDisk true t place
  match Project.load t input with
  | .error _ => return t
  | .ok p =>
    let dir := p.outputDir output
    p.files.foldlM (fun t file => addSpine t (placeOf (t.absolute (p.outputPath dir file)))) t

/-- The files that a command line is run on. -/
def files (args : List Text) : IO FileTree := do
  let here := placeOf (Text.ofString (← IO.currentDir).toString)
  let t : FileTree := { workingDir := here }
  let t ← addSpine t here
  match Invocation.parse args with
  | .ok ⟨_, .build input output _⟩ => addInput t input output
  | .ok ⟨_, .check input⟩ => addInput t input []
  | _ => return t

/-- Writes the files and makes the directories that a run changed or added. -/
def store (before after : FileTree) : IO Unit := do
  for (p, entry) in after.entries.entries do
    if before.entryAt p != some entry then
      match entry with
      | .directory => IO.FS.createDirAll (diskName p)
      | .file content =>
        IO.FS.createDirAll (diskName p.dropLast)
        IO.FS.writeBinFile (diskName p) ⟨content.toArray⟩

/-- The language of the environment. -/
def language : IO Language := do
  let values ← Environment.languageVariables.mapM fun v => do
    let value ← IO.getEnv ((String.fromUTF8? ⟨v.toArray⟩).getD "")
    return value.map fun x => (v, Text.ofString x)
  return Environment.detectLanguage (values.filterMap id)

end MeaningForest.Program

open MeaningForest in
def main (args : List String) : IO UInt32 := do
  let args := args.map Text.ofString
  let before ← Program.files args
  match execute (← Program.language) Host.format before args with
  | .error f =>
    (← IO.getStderr).write ⟨(Text.ofString "panic: " ++ f.message ++ Text.ofString "\n").toArray⟩
    return 2
  | .ok o =>
    Program.store before o.tree
    (← IO.getStdout).write ⟨o.log.printed.toArray⟩
    return o.exitCode.toUInt32

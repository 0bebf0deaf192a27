import MeaningForest.Collections.OrderedMap
import MeaningForest.Path

/-!
# File trees

A file tree has files and directories at places.  A place is the list of names on the way from the root to it; the root
is always a directory.  Paths are followed element by element, so that `..` leads out of a directory only if there is
one, and a failure has the cause that a Unix system names.

* `FileTree.entryAt_put`: putting an entry changes the entry of its place only.
-/

namespace MeaningForest

/-- The names on the way from the root. -/
abbrev Place := List Text

/-- What stands at a place. -/
inductive Entry where
  | file (content : Text)
  | directory
  deriving DecidableEq, Repr

/-- Why an operation on files fails. -/
inductive FileCause where
  | missing
  | notDirectory
  | isDirectory
  | alreadyThere
  | nameTooLong
  | malformedPath
  deriving DecidableEq, Repr

/-- The wording of a cause. -/
def FileCause.message : FileCause → Text
  | missing => "no such file or directory"
  | notDirectory => "not a directory"
  | isDirectory => "is a directory"
  | alreadyThere => "file exists"
  | nameTooLong => "file name too long"
  | malformedPath => "invalid argument"

/-- A failed operation on a path. -/
structure FileFault where
  /-- The name of the operation. -/
  operation : Text
  path : Text
  cause : FileCause
  deriving DecidableEq, Repr

/-- The wording of a failed operation. -/
def FileFault.message (f : FileFault) : Text := f.operation ++ " " ++ f.path ++ ": " ++ f.cause.message

/-- What an operation on a path gives, with the operation and the path in its failure. -/
def FileFault.of {α : Type} (operation path : Text) (r : Except FileCause α) : Except FileFault α :=
  r.mapError (⟨operation, path, ·⟩)

/-- Files and directories. -/
structure FileTree where
  entries : OrderedMap Place Entry := {}
  /-- Where relative paths start. -/
  workingDir : Place := []
  deriving DecidableEq, Repr

namespace FileTree

/-- The entry at a place. -/
def entryAt (t : FileTree) (p : Place) : Option Entry := if p = [] then some .directory else t.entries.get? p

/-- Whether a directory stands at a place. -/
def isDirectory (t : FileTree) (p : Place) : Bool := t.entryAt p == some .directory

/-- Puts an entry at a place. -/
def put (t : FileTree) (p : Place) (e : Entry) : FileTree := { t with entries := t.entries.set p e }

theorem entryAt_put (t : FileTree) {p : Place} (hp : p ≠ []) (e : Entry) (q : Place) :
    (t.put p e).entryAt q = if q = p then some e else t.entryAt q := by
  unfold entryAt put
  by_cases hq : q = []
  · subst hq
    simp [Ne.symm hp]
  · simp [hq, OrderedMap.get?_set]

/-- The files with their places and contents. -/
def files (t : FileTree) : List (Place × Text) :=
  t.entries.entries.filterMap fun (p, e) => match e with
    | .file content => some (p, content)
    | .directory => none

/-! ### Following paths -/

/-- The number of bytes a name can have. -/
def maxNameLength : Nat := 255

/-- The number of bytes a path can have. -/
def maxPathLength : Nat := 4095

/-- Follows elements from a place. -/
def follow (t : FileTree) (p : Place) : List Text → Except FileCause Place
  | [] => .ok p
  | e :: rest =>
    if !t.isDirectory p then .error .notDirectory
    else if e.isEmpty || e == Path.here then t.follow p rest
    else if e == Path.above then t.follow p.dropLast rest
    else if maxNameLength < e.length then .error .nameTooLong
    else if (t.entryAt (p ++ [e])).isNone then .error .missing
    else t.follow (p ++ [e]) rest

/-- Refuses texts that no system takes as a path. -/
def checkPath (path : Text) : Except FileCause Unit :=
  if path.contains 0 then .error .malformedPath
  else if path.isEmpty then .error .missing
  else if maxPathLength < path.length then .error .nameTooLong
  else .ok ()

/-- Where a path starts. -/
def start (t : FileTree) (path : Text) : Place := if Path.isAbsolute path then [] else t.workingDir

/-- The place a path leads to. -/
def resolve (t : FileTree) (path : Text) : Except FileCause Place := do
  checkPath path
  t.follow (t.start path) (Path.elements path)

/-- What a path leads to. -/
def look (t : FileTree) (path : Text) : Except FileCause Entry := do
  match t.entryAt (← t.resolve path) with
  | some e => .ok e
  | none => .error .missing

/-- A path from the root that leads where the given one leads. -/
def absolute (t : FileTree) (path : Text) : Text :=
  if Path.isAbsolute path then Path.clean path else Path.join (Path.ofElements true t.workingDir) path

/-! ### Operations -/

/-- What a path leads to. -/
def stat (t : FileTree) (path : Text) : Except FileFault Entry := FileFault.of "stat" path (t.look path)

/-- The content of a file. -/
def read (t : FileTree) (path : Text) : Except FileFault Text := do
  match ← FileFault.of "open" path (t.look path) with
  | .file content => .ok content
  | .directory => .error ⟨"read", path, .isDirectory⟩

/-- The directory in which the last element of a path lies, and that element.  Slashes at the end do not count. -/
def parentAndName (t : FileTree) (path : Text) : Except FileCause (Place × Text) := do
  checkPath path
  let es := Path.elements (Text.trimEndWhile (· == Path.slash) path)
  let p ← t.follow (t.start path) es.dropLast
  if !t.isDirectory p then .error .notDirectory
  else .ok (p, es.getLast?.getD [])

/-- Makes a directory at the end of a path. -/
def makeDir (t : FileTree) (path : Text) : Except FileCause FileTree := do
  let (p, name) ← t.parentAndName path
  if !Path.isName name then .error .alreadyThere
  else if maxNameLength < name.length then .error .nameTooLong
  else if (t.entryAt (p ++ [name])).isSome then .error .alreadyThere
  else .ok (t.put (p ++ [name]) .directory)

/-- The path with its last element cut off; the slash before that element stays. -/
def parentPath (path : Text) : Text :=
  (((path.reverse.dropWhile (· == Path.slash)).dropWhile (· != Path.slash))).reverse

private theorem length_dropWhile_le (p : UInt8 → Bool) (t : Text) : (t.dropWhile p).length ≤ t.length :=
  (List.dropWhile_sublist p).length_le

theorem parentPath_shorter {path : Text} (h : path ≠ []) : (parentPath path).length < path.length := by
  have hr : path.reverse ≠ [] := by simpa using h
  have hl : path.length = path.reverse.length := List.length_reverse.symm
  rw [parentPath, List.length_reverse, hl]
  generalize path.reverse = t at hr
  cases t with
  | nil => exact absurd rfl hr
  | cons b t =>
    have h1 := length_dropWhile_le (· == Path.slash) t
    have h2 := length_dropWhile_le (· != Path.slash) (t.dropWhile (· == Path.slash))
    have h3 := length_dropWhile_le (· != Path.slash) t
    by_cases hb : (b == Path.slash) = true
    · simp only [List.dropWhile_cons, hb, if_true, List.length_cons]
      omega
    · have hb' : (b != Path.slash) = true := by simpa using hb
      simp only [List.dropWhile_cons, hb, Bool.false_eq_true, if_false, hb', if_true, List.length_cons]
      omega

/-- Tries to make a directory at the end of a path. -/
def tryDir (t : FileTree) (path : Text) : FileTree × Except FileFault Unit :=
  match t.makeDir path with
  | .ok made => (made, .ok ())
  | .error cause => (t, .error ⟨"mkdir", path, cause⟩)

/-- Tries to make the directory of a path and all that are missing on the way to it.  Those that were made before a
failure stay. -/
def tryDirs (t : FileTree) (path : Text) : FileTree × Except FileFault Unit :=
  match t.look path with
  | .ok .directory => (t, .ok ())
  | .ok (.file _) => (t, .error ⟨"mkdir", path, .notDirectory⟩)
  | .error _ =>
    if h : parentPath path = [] then t.tryDir path
    else
      have : (parentPath path).length < path.length := by
        refine parentPath_shorter ?_
        rintro rfl
        exact h rfl
      match t.tryDirs (parentPath path) with
      | (made, .error f) => (made, .error f)
      | (made, .ok _) => made.tryDir path
termination_by path.length

/-- Makes the directory of a path and all that are missing on the way to it. -/
def makeDirs (t : FileTree) (path : Text) : Except FileFault FileTree :=
  match t.tryDirs path with
  | (made, .ok _) => .ok made
  | (_, .error f) => .error f

/-- Puts a file at the end of a path in place of the one that is there. -/
def overwrite (t : FileTree) (path content : Text) : Except FileCause FileTree := do
  checkPath path
  let es := Path.elements path
  let last := es.getLast?.getD []
  if last.isEmpty then
    let _ ← t.parentAndName path
    .error .isDirectory
  else
    let p ← t.follow (t.start path) es.dropLast
    if !t.isDirectory p then .error .notDirectory
    else if !Path.isName last then .error .isDirectory
    else if maxNameLength < last.length then .error .nameTooLong
    else if t.isDirectory (p ++ [last]) then .error .isDirectory
    else .ok (t.put (p ++ [last]) (.file content))

/-- Writes a file; its directory must be there. -/
def write (t : FileTree) (path content : Text) : Except FileFault FileTree :=
  FileFault.of "open" path (t.overwrite path content)

/-- The files below the directory of a path, as paths from it, in the order of their bytes. -/
def filesBelow (t : FileTree) (path : Text) : Except FileFault (List Text) := do
  let p ← FileFault.of "stat" path (t.resolve path)
  let below := t.files.filterMap fun (q, _) =>
    if p.isPrefixOf q then some (Text.join [Path.slash] (q.drop p.length)) else none
  return below.mergeSort Text.le

/-- The directories on the way to a place, the root first. -/
def directoriesAbove (p : Place) : List Place := (List.range p.length).map p.take

/-- Adds a directory unless something is there. -/
private def ensureDirectory (t : FileTree) (p : Place) : FileTree :=
  if (t.entryAt p).isSome then t else t.put p .directory

/-- Adds a file together with the directories on the way to it. -/
def addFile (t : FileTree) (p : Place) (content : Text) : FileTree :=
  ((directoriesAbove p).foldl ensureDirectory t).put p (.file content)

/-- Adds a directory together with those on the way to it. -/
def addDirectory (t : FileTree) (p : Place) : FileTree :=
  (directoriesAbove p ++ [p]).foldl ensureDirectory t

end FileTree

end MeaningForest

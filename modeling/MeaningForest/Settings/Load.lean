import MeaningForest.FileTree
import MeaningForest.Settings.Document

/-!
# Settings of a project

The settings of a directory are those of the nearest settings file in it or above it; without one they are the
defaults.
-/

namespace MeaningForest

/-- Why settings cannot be loaded. -/
inductive SettingsFault where
  /-- The file at a path cannot be read, is malformed or has a value of the wrong kind. -/
  | unreadable (path : Text)
  | unknownKey (path : Text) (key : Toml.Key)
  deriving DecidableEq, Repr

/-- The wording of a fault of settings. -/
def SettingsFault.message : SettingsFault → Text
  | unreadable path => "reading config " ++ path ++ ": <toml>"
  | unknownKey path key => "config " ++ path ++ ": unknown key " ++ Text.quote (Toml.keyText key)

namespace Settings

/-- The name of settings files. -/
def fileName : Text := "meantree.toml"

/-- The settings with an output directory that starts at the directory of the settings file. -/
private def anchored (path : Text) (s : Settings) : Settings :=
  if s.dir.isEmpty || Path.isAbsolute s.dir then s else { s with dir := Path.join (Path.dir path) s.dir }

/-- The settings that a text gives; the path is that of its file. -/
def read (path text : Text) : Except SettingsFault Settings :=
  match Toml.Document.read? text with
  | none => .error (.unreadable path)
  | some d =>
    match ofDocument? d, unknownKey? d with
    | none, _ => .error (.unreadable path)
    | some _, some key => .error (.unknownKey path key)
    | some s, none => .ok (s.anchored path)

/-- Loads the settings file at a path. -/
def load (t : FileTree) (path : Text) : Except SettingsFault Settings :=
  match t.read path with
  | .ok text => read path text
  | .error _ => .error (.unreadable path)

/-- An absolute directory and all above it, the nearest first. -/
private def upwards (dir : Text) : List Text :=
  let es := (Path.elements dir).filter (!·.isEmpty)
  (List.range (es.length + 1)).reverse.map fun n => Path.ofElements true (es.take n)

/-- The path of the nearest settings file in a directory or above it. -/
def find? (t : FileTree) (dir : Text) : Option Text :=
  ((upwards (t.absolute dir)).map (Path.join · fileName)).find? fun path => (t.look path).isOk

/-- The settings of a directory and the path of the file they come from. -/
def forDirectory (t : FileTree) (dir : Text) : Except SettingsFault (Settings × Option Text) :=
  match find? t dir with
  | none => .ok ({}, none)
  | some path => (load t path).map (·, some path)

end Settings

end MeaningForest

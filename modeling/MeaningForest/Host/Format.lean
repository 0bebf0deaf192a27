import MeaningForest.Host.Grammar.Statements
import MeaningForest.Host.Reference
import MeaningForest.Host.Signature
import MeaningForest.Path
import MeaningForest.Text.Number
import MeaningForest.Text.Quoted

/-!
# A formatter of host code

The formatter that the program is run with.  Source that does not parse as host code is refused.  The imports of the
first import block are sorted by group, path and local name, duplicates are dropped and, if asked for, imports that the
code does not use are removed.  The layout of other lines stays as it is.
-/

namespace MeaningForest.Host

/-- An import of a source file. -/
structure ImportSpec where
  localName : Text
  path : Text
  deriving DecidableEq, Repr

namespace ImportSpec

/-- The group of an import: standard packages first, then those with a host name. -/
def group (i : ImportSpec) : Nat :=
  if Text.startsWith i.path "appengine" then 2
  else if (i.path.takeWhile (· != 0x2f)).contains 0x2e then 1
  else 0

/-- The order of imports. -/
def le (a b : ImportSpec) : Bool :=
  if a.group ≠ b.group then a.group < b.group
  else if a.path ≠ b.path then Text.le a.path b.path
  else Text.le a.localName b.localName

/-- A major version such as `v2` is no package name.  The number may have a sign, and it has to fit 64 bits. -/
private def isVersion (element : Text) : Bool :=
  match element with
  | 0x76 :: 0x2d :: digits => (Text.digitsValue? 10 digits).any (· ≤ Nat.pow 2 63)
  | 0x76 :: 0x2b :: digits => (Text.digitsValue? 10 digits).any (· < Nat.pow 2 63)
  | 0x76 :: digits => (Text.digitsValue? 10 digits).any (· < Nat.pow 2 63)
  | _ => false

/-- Whether a character can be part of a package name. -/
private def isNameScalar (c : Nat) : Bool :=
  if c < 0x80 then c == 0x5f || Text.isDigit c.toUInt8 || Text.isAsciiLetter c.toUInt8
  else Text.isLetter c || Text.isDecimal c

/-- The package name that a path suggests: its last element or, if that is a version, the one before. -/
def assumedName (path : Text) : Text :=
  let last := Path.base path
  let base := if isVersion last && Path.dir path != Path.here then Path.base (Path.dir path) else last
  let base := if Text.startsWith base "go-" then base.drop 3 else base
  Text.ofScalars ((Text.scalars base).takeWhile isNameScalar)

/-- The name by which code refers to an import. -/
def name (i : ImportSpec) : Text := if i.localName.isEmpty then assumedName i.path else i.localName

/-- Imports that stay whether or not code mentions them: those without a name, and those whose path is not written as
it is. -/
def isSilent (i : ImportSpec) : Bool :=
  i.localName == Text.ofString "_" || i.localName == Text.ofString "." || i.path == Text.ofString "C" ||
    i.path.quote != Text.ofString "\"" ++ i.path ++ Text.ofString "\""

/-- An import with its local name, if it has one, as a line of a block. -/
def line (i : ImportSpec) : Text :=
  0x09 :: (if i.localName.isEmpty then i.path.quote else i.localName ++ " " ++ i.path.quote)

end ImportSpec

/-- Drops each element that equals the one before it. -/
def dropRepeats {α : Type} [DecidableEq α] : List α → List α
  | a :: b :: rest => if a = b then dropRepeats (b :: rest) else a :: dropRepeats (b :: rest)
  | rest => rest

namespace File

/-- The imports of the first import declaration. -/
def imports (f : File) : List ImportSpec :=
  match f.decls with
  | .imports specs :: _ => specs.map fun (name, path) => ⟨name, (Text.unquote? path).getD path⟩
  | _ => []

/-- The imports in order, without those that the code does not use if imports are to be fixed. -/
def orderedImports (f : File) (fixImports : Bool) : List ImportSpec :=
  let packages := f.packages
  let used := fun (i : ImportSpec) => !fixImports || i.isSilent || packages.contains i.name
  dropRepeats ((f.imports.filter used).mergeSort ImportSpec.le)

end File

/-- Puts other imports into the first import block of a source. -/
def withImports (imports : List ImportSpec) (source : Text) : Text :=
  let lines := source.lines
  let opening : Text := "import ("
  let (head, rest) := lines.span (· != opening)
  match rest with
  | [] => source
  | opening :: rest =>
    Text.join [0x0a] (head ++ opening :: imports.map (·.line) ++ rest.dropWhile (· != Text.ofString ")"))

/-- Formats a source and puts its imports in order, or says that the source does not parse. -/
def format (fixImports : Bool) (source : Text) : Except Text Text :=
  match parseFile? source with
  | none => .error SignatureFault.hostSyntax.message
  | some file => .ok (withImports (file.orderedImports fixImports) source)

end MeaningForest.Host

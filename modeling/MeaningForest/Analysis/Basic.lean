import MeaningForest.Analysis.Profile
import MeaningForest.Settings.Basic

/-!
# Analysis of a declaration file

The analysis of a file has the forest of its meanings and a profile for each.  Profiles are made in order of depth, so
that those of the ancestors of a meaning are there when its own is made.  The overrides of a method are collected from
all profiles into one tree.
-/

namespace MeaningForest

/-- A call of the implementation of an override. -/
structure OverrideCall where
  /-- The meaning that overrides. -/
  meaning : Text
  /-- The name of the method. -/
  method : Text
  /-- The variable that holds the object. -/
  receiver : Text
  arguments : Text
  /-- Whether the method has results to hand on. -/
  hasResults : Bool
  deriving DecidableEq, Repr

/-- The code of a call; it always leaves the calling method. -/
def OverrideCall.text (c : OverrideCall) : Text :=
  let call : Text := c.receiver ++ "." ++ overrideName c.meaning c.method ++ "(" ++ c.arguments ++ ")"
  if c.hasResults then "return " ++ call else call ++ "\nreturn"

namespace Override

/-- The call of an override from the base method, for an object that was narrowed along the path. -/
def call (o : Override) : OverrideCall :=
  { meaning := o.path.getLast?.getD []
    method := o.base.name
    receiver := (dispatchNames o.base.params.names o.path).getLast?.getD []
    arguments := o.base.params.args
    hasResults := !Text.isBlank o.base.decl.results }

/-- Adds the override to a tree. -/
def addTo (t : OverrideTree Text OverrideCall) (o : Override) : Except Fault (OverrideTree Text OverrideCall) :=
  match o.path with
  | [] => .error .emptyOverridePath
  | k :: path => .ok (t.register o.call k path)

end Override

/-- The tables that the analysis of a file fills. -/
structure Analysis where
  file : DeclFile := { name := [] }
  package : Text := []
  arena : Text := []
  forest : Forest := {}
  /-- The profiles in order of depth. -/
  profiles : List Profile := []
  findings : List Finding := []
  deriving DecidableEq, Repr

namespace Analysis

variable [Language]

/-- The profile of a meaning among those that are made. -/
def find (profiles : List Profile) (m : Text) : Except Fault Profile :=
  match profiles.find? (·.name == m) with
  | some p => .ok p
  | none => .error .missingObject

/-- Makes the profile of the next meaning. -/
def step (f : Forest) (made : List Profile) (n : ForestNode × List Text) : Except Fault (List Profile) := do
  let above ← n.2.dropLast.mapM (find made)
  return made ++ [Profile.ofDecl above n.1.decl n.2 (f.submeanings n.1.name)]

/-- The empty tables for a file. -/
def start (settings : Settings) (file : DeclFile) : Analysis :=
  { file
    package := if file.package.isEmpty then settings.package else file.package
    arena := if file.arena.isEmpty then settings.arena else file.arena }

/-- Registers the meanings of the file. -/
def addMeanings (a : Analysis) : Analysis :=
  let (forest, found) := a.forest.extend a.arena a.file.meanings
  { a with forest, findings := a.findings ++ found }

/-- Checks the names that are generated for the meanings. -/
def checkNames (a : Analysis) : Analysis := { a with findings := a.findings ++ a.forest.nameFindings a.arena }

/-- Adds the profiles of the meanings, in order of depth. -/
def addProfiles (a : Analysis) : Except Fault Analysis := do
  let profiles ← (← a.forest.byDepth).foldlM (step a.forest) a.profiles
  return { a with profiles, findings := a.findings ++ profiles.flatMap (·.findings) }

/-- Fills the tables with what the file declares. -/
def fill (a : Analysis) : Except Fault Analysis := a.addMeanings.checkNames.addProfiles

/-- Analyses a file. -/
def ofFile (settings : Settings) (file : DeclFile) : Except Fault Analysis := (start settings file).fill

/-- The profile of a meaning. -/
def profile (a : Analysis) (m : Text) : Except Fault Profile := find a.profiles m

/-- The profiles in the order of declaration. -/
def declared (a : Analysis) : Except Fault (List Profile) := a.forest.names.mapM a.profile

/-- The overrides of a method that is defined in `owner`. -/
def overridesOf (a : Analysis) (owner method : Text) : List Override :=
  a.profiles.flatMap fun p => p.overrides.filter fun o => o.base.owner == owner && o.base.name == method

/-- The tree of the overrides of a method. -/
def overrideTree (a : Analysis) (owner method : Text) : Except Fault (OverrideTree Text OverrideCall) :=
  (a.overridesOf owner method).foldlM Override.addTo .nil

/-- The override of a method that applies to an object with the given ancestry. -/
def resolve (a : Analysis) (owner method : Text) (ascending : List Text) : Except Fault (Option OverrideCall) := do
  match after? owner ascending with
  | none => return none
  | some path => return (← a.overrideTree owner method).resolve path

/-- The findings as they are shown to a user. -/
def diagnostics (a : Analysis) : List Diagnostic := a.findings.map (Located.diagnostic a.file.name)

end Analysis

end MeaningForest

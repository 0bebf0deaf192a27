import MeaningForest.Project.Run

/-!
# Command line

The program has the commands `build`, `check` and `version`.  Arguments that start with a dash are flags or, with a
value after an equality sign, options; two dashes stand before a full name, one before a short one.  A command stands
before its flags and options; those of the program itself can stand anywhere.
-/

namespace MeaningForest

/-! ### Commands -/

/-- An argument with a value. -/
structure ValueOption where
  name : Text
  short : Text
  /-- The values it takes; any value if there are none. -/
  choices : List Text := []
  deriving DecidableEq, Repr

/-- An argument without a value. -/
structure Flag where
  name : Text
  short : Text
  deriving DecidableEq, Repr

/-- The arguments of a command. -/
structure CommandSpec where
  name : Text
  options : List ValueOption := []
  flags : List Flag := []
  /-- Whether the command needs an input path. -/
  takesInput : Bool := false
  deriving DecidableEq, Repr

namespace CommandSpec

/-- The option for the level of the log. -/
def logLevel : ValueOption := ⟨"loglevel", "ll", LogLevel.all.map (·.name)⟩

/-- The option for the output directory. -/
def output : ValueOption := ⟨"output", "o", []⟩

/-- The flag that leaves imports as they are. -/
def noImports : Flag := ⟨"no-imports", "ni"⟩

/-- The program itself. -/
def program : CommandSpec := { name := "meantree", options := [logLevel] }

def build : CommandSpec := { name := "build", options := [output], flags := [noImports], takesInput := true }
def check : CommandSpec := { name := "check", takesInput := true }
def version : CommandSpec := { name := "version" }

/-- All commands. -/
def all : List CommandSpec := [build, check, version]

end CommandSpec

/-- The version of the program. -/
def programVersion : Text := "0.1.0"

/-! ### Faults -/

/-- Why arguments are refused. -/
inductive ArgumentFault where
  | unknownCommand (name : Text)
  /-- A word in the place of a command after an option or flag. -/
  | lateCommand (name : Text)
  | noCommand
  | noInput (command : Text)
  | manyInputs (command : Text)
  | unknownFlag (name : Text) (isShort : Bool)
  | unknownOption (name : Text) (isShort : Bool)
  | repeatedFlag (name : Text)
  | repeatedOption (name : Text)
  | badChoice (value option : Text)
  deriving DecidableEq, Repr

namespace ArgumentFault

/-- A text between back quotes. -/
private def ticked (t : Text) : Text := [0x60] ++ t ++ [0x60]

/-- What stands between a noun and an unknown name. -/
private def byName (isShort : Bool) : Text := if isShort then " by short name: " else ": "

/-- The wording of a fault. -/
def message : ArgumentFault → Text
  | unknownCommand name => "unknown subcommand: " ++ ticked name
  | lateCommand name => "unexpected subcommand: " ++ ticked name
  | noCommand => ticked CommandSpec.program.name ++ Text.ofString " requires a subcommand"
  | noInput command => "missing required primary argument " ++ ticked command ++ " for subcommand " ++ ticked "input"
  | manyInputs command => "multiple primary arguments specified for command " ++ ticked command
  | unknownFlag name isShort => "unknown flag" ++ byName isShort ++ ticked name
  | unknownOption name isShort => "unknown argument" ++ byName isShort ++ ticked name
  | repeatedFlag name => "flag " ++ ticked name ++ " set multiple times"
  | repeatedOption name => "argument " ++ ticked name ++ " set multiple times"
  | badChoice value option => ticked value ++ Text.ofString " is not a valid value for argument [" ++ option ++
      Text.ofString "]"

end ArgumentFault

/-! ### Arguments -/

/-- One argument of a command line. -/
inductive CommandWord where
  | plain (word : Text)
  | flag (name : Text) (isShort : Bool)
  | option (name value : Text) (isShort : Bool)
  deriving DecidableEq, Repr

/-- Classifies an argument.  Without a value after the equality sign it is a flag. -/
def CommandWord.of (arg : Text) : CommandWord :=
  match arg with
  | 0x2d :: rest =>
    let isShort := rest.head? != some 0x2d
    let body := rest.dropWhile (· == 0x2d)
    let name := body.takeWhile (· != 0x3d)
    let value := body.drop (name.length + 1)
    if value.isEmpty then .flag name isShort else .option name value isShort
  | word => .plain word

/-- The arguments taken so far. -/
structure Arguments where
  command : Option CommandSpec := none
  input : Text := []
  values : OrderedMap Text Text := {}
  flags : List Text := []
  /-- Whether a flag or an option was taken. -/
  isNamed : Bool := false
  deriving DecidableEq, Repr

namespace Arguments

/-- The specifications in force, the innermost first. -/
private def specs (a : Arguments) : List CommandSpec := a.command.toList ++ [CommandSpec.program]

/-- Takes a word that is no flag and no option.  A command has to stand before flags and options. -/
private def takePlain (a : Arguments) (word : Text) : Except ArgumentFault Arguments :=
  match a.command with
  | some c =>
    if !c.takesInput then .error (if a.isNamed then .lateCommand word else .unknownCommand word)
    else if a.input.isEmpty then .ok { a with input := word }
    else .error (.manyInputs c.name)
  | none =>
    if a.isNamed then .error (.lateCommand word)
    else match CommandSpec.all.find? (·.name == word) with
      | none => .error (.unknownCommand word)
      | some c => .ok { a with command := some c }

/-- Takes a flag. -/
private def takeFlag (a : Arguments) (name : Text) (isShort : Bool) : Except ArgumentFault Arguments :=
  match (a.specs.flatMap (·.flags)).find? fun f => (if isShort then f.short else f.name) == name with
  | none => .error (.unknownFlag name isShort)
  | some f =>
    if a.flags.contains f.name then .error (.repeatedFlag f.name)
    else .ok { a with flags := a.flags ++ [f.name], isNamed := true }

/-- Takes an option. -/
private def takeOption (a : Arguments) (name value : Text) (isShort : Bool) : Except ArgumentFault Arguments :=
  match (a.specs.flatMap (·.options)).find? fun o => (if isShort then o.short else o.name) == name with
  | none => .error (.unknownOption name isShort)
  | some o =>
    if a.values.has o.name then .error (.repeatedOption o.name)
    else if !o.choices.isEmpty && !o.choices.contains value then .error (.badChoice value o.name)
    else .ok { a with values := a.values.set o.name value, isNamed := true }

/-- Takes one argument. -/
def take (a : Arguments) (arg : Text) : Except ArgumentFault Arguments :=
  match CommandWord.of arg with
  | .plain word => a.takePlain word
  | .flag name isShort => a.takeFlag name isShort
  | .option name value isShort => a.takeOption name value isShort

/-- The value of an option, empty if it was not given. -/
def value (a : Arguments) (o : ValueOption) : Text := (a.values.get? o.name).getD []

end Arguments

/-- What the program is asked to do. -/
inductive Task where
  | build (input output : Text) (noImports : Bool)
  | check (input : Text)
  | version
  deriving DecidableEq, Repr

/-- A command line that was understood. -/
structure Invocation where
  level : LogLevel
  task : Task
  deriving DecidableEq, Repr

/-- Understands the arguments of a command line. -/
def Invocation.parse (args : List Text) : Except ArgumentFault Invocation := do
  let a ← args.foldlM Arguments.take {}
  match a.command with
  | none => .error .noCommand
  | some c =>
    if c.takesInput && a.input.isEmpty then .error (.noInput c.name)
    else
      let task : Task :=
        if c = CommandSpec.build then
          .build a.input (a.value CommandSpec.output) (a.flags.contains CommandSpec.noImports.name)
        else if c = CommandSpec.check then .check a.input
        else .version
      return ⟨LogLevel.ofName (a.value CommandSpec.logLevel), task⟩

/-- Runs the program on a file tree. -/
def execute (lang : Language) (format : Formatter) (t : FileTree) (args : List Text) : Except Fault Outcome :=
  match Invocation.parse args with
  | .error f =>
    let log : Log := {}
    .ok ⟨2, t, log.print (messageLine (Notice.badArguments.word lang []) f.message)⟩
  | .ok i =>
    let r : Run := { tree := t, log := { level := i.level } }
    match i.task with
    | .build input output noImports => r.build lang format input output noImports
    | .check input => r.check lang format input
    | .version => .ok ⟨0, t, r.log.print (messageLine "meantree" (Notice.version.word lang [programVersion]))⟩

end MeaningForest

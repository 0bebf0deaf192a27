import MeaningForest.Catalog.Wording

/-!
# Selection of the language

The language is either chosen explicitly or detected, once, from environment variables.
-/

namespace MeaningForest

namespace Language

/-- The code of a language. -/
def code : Language → Text
  | english => "en"
  | chinese => "zh"

/-- The language that a locale code such as `zh_CN.UTF-8` or `en-US` begins with. -/
def ofLocale? (locale : Text) : Option Language :=
  if locale.lowerAscii.startsWith "zh" then some chinese
  else if locale.lowerAscii.startsWith "en" then some english
  else none

/-- The language a code selects: English unless the code is the one of Chinese. -/
abbrev ofCode (code : Text) : Language := if code = chinese.code then chinese else english

end Language

/-- The values of environment variables; a variable that is not set has no entry. -/
abbrev Environment := List (Text × Text)

namespace Environment

/-- The variables that name a language, the most important one first. -/
def languageVariables : List Text := ["MEANTREE_LANG", "LC_ALL", "LC_MESSAGES", "LANG", "LANGUAGE"]

/-- The value of a variable, empty if it is not set. -/
def value (env : Environment) (name : Text) : Text := (env.lookup name).getD []

/-- The language of the first variable whose value names one, English if there is none. -/
abbrev detectLanguage (env : Environment) : Language :=
  (languageVariables.findSome? fun v => Language.ofLocale? (env.value v)).getD .english

end Environment

/-- The language in force during a run. -/
structure LanguageSetting where
  /-- The code in force, empty before the first use. -/
  current : Text := []
  /-- Whether the code was chosen explicitly, which turns detection off. -/
  explicit : Bool := false
  deriving DecidableEq, Repr

namespace LanguageSetting

/-- Detects the language unless one is in force or was chosen. -/
def settle (s : LanguageSetting) (env : Environment) : LanguageSetting :=
  if !s.explicit && s.current.isEmpty then { s with current := env.detectLanguage.code } else s

/-- Chooses a language by its code. -/
def choose (_ : LanguageSetting) (code : Text) : LanguageSetting := ⟨code, true⟩

/-- The language of messages. -/
abbrev language (s : LanguageSetting) : Language := Language.ofCode s.current

/-- The code in force, which is detected if need be. -/
def ask (s : LanguageSetting) (env : Environment) : Text × LanguageSetting := ((s.settle env).current, s.settle env)

/-- The wording of the message with a given key in the language in force, which is detected if need be. -/
def translate (s : LanguageSetting) (env : Environment) (key : Text) (args : List Argument) : Text × LanguageSetting :=
  (Notice.wordKey (s.settle env).language key args, s.settle env)

end LanguageSetting

end MeaningForest

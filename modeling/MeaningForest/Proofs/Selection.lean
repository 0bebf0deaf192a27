import MeaningForest.Catalog.Selection
import Mathlib.Data.List.Induction
import Mathlib.Data.List.TakeWhile

/-!
# The language during a run

The language is detected when it is first needed, unless it was chosen before, and a choice can be made at any time,
even of an empty code.  Whatever the order of these steps and of changes to the environment, the language that a step
meets can be told from the history (`inForce`): it is the last choice, and without a choice the one that the environment
named when the language was needed for the first time (`LanguageState.inForce_of_reads`).

What an environment names is the language of the first of its variables that names one (`Environment.detects_iff`).
-/

namespace MeaningForest

/-! ### Detection -/

theorem Language.ofLocale?_nil : ofLocale? [] = none := by decide

namespace Environment

/-- An environment names a language: by the first variable whose value is a code that begins with that of a language,
and English if there is none. -/
inductive Detects (env : Environment) : Language → Prop
  | named {front back : List Text} {v : Text} {l : Language} (hvars : languageVariables = front ++ v :: back)
      (hskip : ∀ w ∈ front, env.value w = [] ∨ Language.ofLocale? (env.value w) = none) (hvalue : env.value v ≠ [])
      (hl : Language.ofLocale? (env.value v) = some l) : Detects env l
  | unnamed (hskip : ∀ w ∈ languageVariables, env.value w = [] ∨ Language.ofLocale? (env.value w) = none) :
      Detects env .english

theorem ofLocale?_value_eq_none {env : Environment} {v : Text} :
    Language.ofLocale? (env.value v) = none ↔ env.value v = [] ∨ Language.ofLocale? (env.value v) = none := by
  refine ⟨.inr, ?_⟩
  rintro (h | h)
  · rw [h, Language.ofLocale?_nil]
  · exact h

theorem detects_detectLanguage (env : Environment) : env.Detects env.detectLanguage := by
  rw [detectLanguage]
  cases hfind : languageVariables.findSome? fun v => Language.ofLocale? (env.value v) with
  | none =>
    rw [List.findSome?_eq_none_iff] at hfind
    exact .unnamed fun w hw => .inr (hfind w hw)
  | some l =>
    obtain ⟨front, v, back, hvars, hl, hfront⟩ := List.findSome?_eq_some_iff.1 hfind
    refine .named hvars (fun w hw => .inr (hfront w hw)) (fun hempty => ?_) hl
    rw [hempty, Language.ofLocale?_nil] at hl
    cases hl

theorem detects_iff {env : Environment} {l : Language} : env.Detects l ↔ env.detectLanguage = l := by
  refine ⟨fun h => ?_, fun h => h ▸ env.detects_detectLanguage⟩
  rw [detectLanguage]
  cases h with
  | named hvars hskip _ hl =>
    have hfind := List.findSome?_eq_some_iff.2 ⟨_, _, _, hvars, hl, fun w hw => ofLocale?_value_eq_none.2 (hskip w hw)⟩
    rw [hfind]
    rfl
  | unnamed hskip =>
    have hfind := List.findSome?_eq_none_iff.2 fun w hw => ofLocale?_value_eq_none.2 (hskip w hw)
    rw [hfind]
    rfl

end Environment

/-! ### Steps -/

/-- A step of a program with messages. -/
inductive LanguageStep where
  /-- The language is settled without being used. -/
  | settle
  | choose (code : Text)
  | ask
  | translate (key : Text) (args : List Argument)
  /-- The environment is changed. -/
  | environment (env : Environment)

namespace LanguageStep

/-- Whether the step needs the language. -/
def reads : LanguageStep → Bool
  | settle | ask | translate .. => true
  | choose _ | environment _ => false

/-- The code that is chosen. -/
def choice? : LanguageStep → Option Text
  | choose code => some code
  | _ => none

/-- The environment that is set. -/
def environment? : LanguageStep → Option Environment
  | environment env => some env
  | _ => none

end LanguageStep

/-- A setting and the environment around it. -/
structure LanguageState where
  setting : LanguageSetting := {}
  env : Environment
  deriving DecidableEq, Repr

namespace LanguageState

open LanguageStep

/-- The state after a step. -/
def step (s : LanguageState) : LanguageStep → LanguageState
  | .settle => { s with setting := s.setting.settle s.env }
  | .choose code => { s with setting := s.setting.choose code }
  | .ask => { s with setting := (s.setting.ask s.env).2 }
  | .translate key args => { s with setting := (s.setting.translate s.env key args).2 }
  | .environment env => { s with env }

/-- The state after a run in which nothing was chosen or detected at the start. -/
def run (env : Environment) (steps : List LanguageStep) : LanguageState := steps.foldl step { env }

/-! ### The history -/

/-- The last choice of a run. -/
def lastChoice? (steps : List LanguageStep) : Option Text := (steps.filterMap choice?).getLast?

/-- The steps before the language is needed for the first time. -/
def unread (steps : List LanguageStep) : List LanguageStep := steps.takeWhile (!·.reads)

/-- The environment after some steps. -/
def environmentAfter (env : Environment) (steps : List LanguageStep) : Environment :=
  (steps.filterMap environment?).getLast?.getD env

/-- The code in force after a run in which the language was needed: the last choice, and without one the language that
was detected when it was needed for the first time. -/
def inForce (env : Environment) (steps : List LanguageStep) : Text :=
  (lastChoice? steps).getD (environmentAfter env (unread steps)).detectLanguage.code

variable {env : Environment} {steps : List LanguageStep} {s : LanguageStep}

theorem run_concat (env : Environment) (steps : List LanguageStep) (s : LanguageStep) :
    run env (steps ++ [s]) = (run env steps).step s := by
  rw [run, run, List.foldl_append]
  rfl

theorem lastChoice?_concat : lastChoice? (steps ++ [s]) = s.choice?.or (lastChoice? steps) := by
  rw [lastChoice?, lastChoice?, List.filterMap_append, List.getLast?_append]
  cases hs : s.choice? <;> simp [hs]

theorem environmentAfter_concat : environmentAfter env (steps ++ [s]) =
    s.environment?.getD (environmentAfter env steps) := by
  rw [environmentAfter, environmentAfter, List.filterMap_append, List.getLast?_append]
  cases hs : s.environment? <;> simp [hs]

theorem unread_append (h : steps.any reads) (more : List LanguageStep) : unread (steps ++ more) = unread steps := by
  have hshort : (unread steps).length ≠ steps.length := fun hlength => by
    have hsame : unread steps = steps := (List.takeWhile_prefix _).eq_of_length hlength
    obtain ⟨s, hs, hreads⟩ := List.any_eq_true.1 h
    have hnot := List.takeWhile_eq_self_iff.1 hsame s hs
    rw [hreads] at hnot
    cases hnot
  simp only [unread] at hshort ⊢
  rw [List.takeWhile_append, if_neg hshort]

theorem env_run (env : Environment) (steps : List LanguageStep) : (run env steps).env = environmentAfter env steps := by
  induction steps using List.reverseRecOn with
  | nil => rfl
  | append_singleton steps s ih =>
    rw [run_concat, environmentAfter_concat, ← ih]
    cases s <;> rfl

/-! ### Settings -/

theorem code_ne_nil (l : Language) : l.code ≠ [] := by cases l <;> decide

/-- The setting after a run, told from its steps. -/
def settingAfter (env : Environment) (steps : List LanguageStep) : LanguageSetting :=
  match lastChoice? steps with
  | some code => ⟨code, true⟩
  | none => if steps.any reads then ⟨inForce env steps, false⟩ else {}

theorem settingAfter_of_choice {code : Text} (h : lastChoice? steps = some code) :
    settingAfter env steps = ⟨code, true⟩ := by
  rw [settingAfter, h]

/-- Steps without a choice leave the setting as it is, once the language was needed. -/
theorem settingAfter_append {more : List LanguageStep} (hmore : ∀ later ∈ more, later.choice? = none)
    (hread : steps.any reads ∨ more.any reads = false) : settingAfter env (steps ++ more) = settingAfter env steps := by
  have hlast : lastChoice? (steps ++ more) = lastChoice? steps := by
    rw [lastChoice?, List.filterMap_append, List.filterMap_eq_nil_iff.2 hmore, List.append_nil, lastChoice?]
  have hany : (steps ++ more).any reads = steps.any reads := by
    rw [List.any_append]
    rcases hread with hread | hread <;> rw [hread]
    · rfl
    · rw [Bool.or_false]
  rw [settingAfter, settingAfter, hlast, hany]
  cases hsteps : steps.any reads with
  | false => rfl
  | true => rw [inForce, inForce, hlast, unread_append hsteps]

/-- A step that needs the language finds the setting of the history, or makes it. -/
theorem settle_settingAfter (hs : s.reads) :
    (settingAfter env steps).settle (environmentAfter env steps) = settingAfter env (steps ++ [s]) := by
  have hchoice : lastChoice? (steps ++ [s]) = lastChoice? steps := by
    rw [lastChoice?_concat]
    cases s <;> first | rfl | cases hs
  have hany : (steps ++ [s]).any reads = true := by simp [hs]
  cases hlast : lastChoice? steps with
  | some code =>
    rw [settingAfter_of_choice hlast, settingAfter_of_choice (hchoice.trans hlast)]
    rfl
  | none =>
    rw [settingAfter, settingAfter, hchoice, hlast, hany, inForce, inForce, hchoice, hlast]
    cases hread : steps.any reads with
    | true => simp [LanguageSetting.settle, unread_append hread, code_ne_nil]
    | false =>
      have hunread : unread (steps ++ [s]) = steps := by
        rw [unread, List.takeWhile_append_of_pos (by simpa using hread)]
        simp [hs]
      simp [LanguageSetting.settle, hunread]

/-- The setting after a run is that of the history. -/
theorem setting_run (env : Environment) (steps : List LanguageStep) :
    (run env steps).setting = settingAfter env steps := by
  induction steps using List.reverseRecOn with
  | nil => rfl
  | append_singleton steps s ih =>
    have hsettle : s.reads → (run env steps).setting.settle (run env steps).env = settingAfter env (steps ++ [s]) := by
      intro hs
      rw [ih, env_run, settle_settingAfter hs]
    rw [run_concat]
    cases s with
    | settle => exact hsettle rfl
    | ask => exact hsettle rfl
    | translate key args => exact hsettle rfl
    | choose code =>
      have hlast : lastChoice? (steps ++ [.choose code]) = some code := by rw [lastChoice?_concat]; rfl
      exact (settingAfter_of_choice hlast).symm
    | environment env' =>
      exact ih.trans (settingAfter_append (by simp [choice?]) (.inr rfl)).symm

theorem settle_run (env : Environment) (steps : List LanguageStep) (hs : s.reads) :
    (run env steps).setting.settle (run env steps).env = settingAfter env (steps ++ [s]) := by
  rw [setting_run, env_run, settle_settingAfter hs]

theorem current_settingAfter (h : steps.any reads) : (settingAfter env steps).current = inForce env steps := by
  rw [settingAfter, inForce]
  cases lastChoice? steps with
  | some code => rfl
  | none => rw [h]; rfl

/-! ### The language in force -/

/-- What a step finds out about the language, and what it leaves to later ones, is told by the history: the language is
the last choice, and without a choice the one that the environment named when it was needed for the first time.  It
stays in force until the next choice. -/
theorem inForce_of_reads (env : Environment) (steps : List LanguageStep) :
    (∀ s, s.reads → ∀ more : List LanguageStep, (∀ later ∈ more, later.choice? = none) →
      (run env (steps ++ [s] ++ more)).setting.current = inForce env (steps ++ [s])) ∧
    ((run env steps).setting.ask (run env steps).env).1 = inForce env (steps ++ [.ask]) ∧
    (∀ key args, ((run env steps).setting.translate (run env steps).env key args).1 =
      Notice.wordKey (Language.ofCode (inForce env (steps ++ [.translate key args]))) key args) ∧
    ∀ (around : Environment) (l : Language), around.Detects l ↔ around.detectLanguage = l := by
  have hany : ∀ s : LanguageStep, s.reads → (steps ++ [s]).any reads := fun s hs => by simp [hs]
  have hfound : ∀ s : LanguageStep, s.reads → (settingAfter env (steps ++ [s])).current = inForce env (steps ++ [s]) :=
    fun s hs => current_settingAfter (hany s hs)
  refine ⟨fun s hs more hmore => ?_, ?_, fun key args => ?_, fun _ _ => Environment.detects_iff⟩
  · rw [setting_run, settingAfter_append hmore (.inl (hany s hs)), hfound s hs]
  · rw [LanguageSetting.ask, settle_run env steps (s := .ask) rfl, hfound .ask rfl]
  · rw [LanguageSetting.translate, settle_run env steps (s := .translate key args) rfl, LanguageSetting.language,
      hfound (.translate key args) rfl]

/-- The language was detected, is kept when the environment changes, and gives way to an empty code. -/
theorem inForce_of_reads_changed :
    (run [("LANG", "zh_CN")]
        ([.settle, .environment [("LANG", "en")]] ++ [.ask] ++ [.environment []])).setting.current =
      Language.chinese.code ∧
    (run [("LANG", "zh_CN")] ([.settle, .choose []] ++ [.ask] ++ [.environment []])).setting.current = [] := by
  constructor
  · have h := (inForce_of_reads [("LANG", "zh_CN")] [.settle, .environment [("LANG", "en")]]).1
    rw [h .ask rfl [.environment []] (by simp [choice?])]
    decide +kernel
  · rw [(inForce_of_reads [("LANG", "zh_CN")] [.settle, .choose []]).1 .ask rfl [.environment []] (by simp [choice?])]
    decide +kernel

end LanguageState

end MeaningForest

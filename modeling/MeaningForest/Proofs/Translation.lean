import MeaningForest.CommandLine
import MeaningForest.Proofs.Languages
import MeaningForest.Proofs.Runs

/-!
# The language of messages

The language decides how messages are worded and nothing else.  A text that is made of plain text and of notices with
their arguments (`Phrase`) says the same in two languages (`Says`), and so does what is printed, piece by piece
(`Shown`).

All stages run in a language: the reader, the analysis and the program word what they find when they find it.  Two runs
in two languages are compared step by step: they end with the same fault or agree in everything but the words (`Agree`).
This is shown for what is told of one source and for the whole program (`language_changes_words_only`).
-/

namespace MeaningForest

open Analysis (Recording)

/-! ### Words -/

/-- A part of a message: text that is the same in every language, or a notice with its arguments. -/
inductive Piece where
  | plain (t : Text)
  | notice (n : Notice) (args : List Argument)

/-- A message in every language. -/
abbrev Phrase := List Piece

namespace Piece

def word (lang : Language) : Piece → Text
  | plain t => t
  | notice n args => n.word lang args

end Piece

def Phrase.word (lang : Language) (p : Phrase) : Text := p.flatMap (Piece.word lang)

variable {lang lang' : Language} {format : Formatter}

/-- Two texts that are one message in two languages. -/
def Says (lang lang' : Language) (t t' : Text) : Prop := ∃ p : Phrase, t = p.word lang ∧ t' = p.word lang'

theorem Says.plain (t : Text) : Says lang lang' t t := ⟨[.plain t], by simp [Phrase.word, Piece.word]⟩

theorem Says.notice (n : Notice) (args : List Argument) : Says lang lang' (n.word lang args) (n.word lang' args) :=
  ⟨[.notice n args], by simp [Phrase.word, Piece.word]⟩

theorem Says.append {t t' u u' : Text} (h : Says lang lang' t t') (hu : Says lang lang' u u') :
    Says lang lang' (t ++ u) (t' ++ u') := by
  obtain ⟨p, rfl, rfl⟩ := h
  obtain ⟨q, rfl, rfl⟩ := hu
  exact ⟨p ++ q, List.flatMap_append.symm, List.flatMap_append.symm⟩

/-- What a diagnostic says in every language. -/
structure Remark where
  file : Text
  line : Int
  column : Int
  isWarning : Bool
  notice : Notice
  args : List Argument

def Remark.diagnostic (lang : Language) (m : Remark) : Diagnostic :=
  { file := m.file, line := m.line, column := m.column, message := m.notice.word lang m.args, isWarning := m.isWarning }

/-- Diagnostics that say the same in two languages: in the same files, at the same places, in the same order. -/
def Translated (lang lang' : Language) (ds ds' : List Diagnostic) : Prop :=
  ∃ remarks : List Remark, ds = remarks.map (·.diagnostic lang) ∧ ds' = remarks.map (·.diagnostic lang')

/-- The notice of each problem does not depend on the language. -/
theorem translated_problems {α : Type} [Problem α]
    (h : ∀ a : α, ∃ n args, ∀ lang, Problem.message lang a = Notice.word lang n args) (file : Text)
    (problems : List (Located α)) :
    Translated lang lang' ((problems.map (Located.reworded lang)).map (Located.diagnostic file))
      ((problems.map (Located.reworded lang')).map (Located.diagnostic file)) := by
  choose notice args hmessage using h
  refine ⟨problems.map fun p => ⟨file, p.position.line, p.position.column, false, notice p.problem, args p.problem⟩, ?_⟩
  simp [Remark.diagnostic, Located.diagnostic, Located.reworded, Located.found, hmessage, Function.comp_def]

theorem ReadProblem.exists_notice (p : ReadProblem) : ∃ n args, ∀ lang, p.message lang = Notice.word lang n args := by
  cases p <;> exact ⟨_, _, fun _ => rfl⟩

theorem AnalysisProblem.exists_notice (p : AnalysisProblem) :
    ∃ n args, ∀ lang, p.message lang = Notice.word lang n args := by
  cases p <;> exact ⟨_, _, fun _ => rfl⟩

theorem ReadResult.translated (r : ReadResult) (file : Text) :
    Translated lang lang' ((r.reworded lang).problems.map (Located.diagnostic file))
      ((r.reworded lang').problems.map (Located.diagnostic file)) :=
  translated_problems ReadProblem.exists_notice file r.problems

theorem Analysis.translated (a : Analysis) :
    Translated lang lang' (a.reworded lang).diagnostics (a.reworded lang').diagnostics :=
  translated_problems AnalysisProblem.exists_notice a.file.name a.findings

theorem Rejection.translated (r : Rejection) :
    Translated lang lang' (r.reworded lang).diagnostics (r.reworded lang').diagnostics := by
  cases r with
  | unreadable file problems => exact translated_problems ReadProblem.exists_notice file problems
  | faulty a => exact a.translated
  | broken file source fault => exact ⟨[], rfl, rfl⟩

theorem ProjectFault.translated (f : ProjectFault) :
    Translated lang lang' (f.reworded lang).diagnostics (f.reworded lang').diagnostics := by
  cases f with
  | rejected path cause => exact cause.translated
  | _ => exact ⟨[], rfl, rfl⟩

theorem ProjectFault.isDiagnosed_reworded (f : ProjectFault) : (f.reworded lang).isDiagnosed = f.isDiagnosed := by
  rcases f with _ | _ | _ | _ | ⟨_, _ | _ | _⟩ | _ | _ <;> rfl

theorem Rejection.length_reworded (r : Rejection) : (r.reworded lang).diagnostics.length = r.diagnostics.length := by
  cases r <;> simp [reworded, diagnostics, Analysis.diagnostics, Analysis.reworded]

/-- A message of a project counts diagnostics and does not quote them. -/
theorem ProjectFault.message_reworded (f : ProjectFault) : (f.reworded lang).message lang' = f.message lang' := by
  cases f with
  | rejected path cause =>
    have hlength := @Rejection.length_reworded lang cause
    cases cause with
    | broken file source fault => rfl
    | unreadable file problems =>
      exact congrArg (fun n : Nat => Notice.parseFailed.word lang' [path, .number n]) hlength
    | faulty a => exact congrArg (fun n : Nat => Notice.transpileFailed.word lang' [path, .number n]) hlength
  | _ => rfl

theorem ProjectFault.says (f : ProjectFault) : Says lang lang' (f.message lang) (f.message lang') := by
  have hbecause : ∀ (n : Notice) (path cause : Text), Says lang lang'
    (n.word lang [.text path] ++ Text.ofString ": " ++ cause)
      (n.word lang' [.text path] ++ Text.ofString ": " ++ cause) :=
    fun n path cause => ((Says.notice n _).append (.plain _)).append (.plain cause)
  cases f with
  | inaccessible path cause => exact hbecause ..
  | noFiles dir => exact .notice ..
  | badSettings path cause => exact hbecause ..
  | unreadable path cause => exact hbecause ..
  | noDirectory path cause => exact hbecause ..
  | notWritten path cause => exact hbecause ..
  | rejected path cause =>
    cases cause with
    | broken file source fault => exact ((Says.plain file).append (.plain _)).append (.notice ..)
    | unreadable file problems => exact .notice ..
    | faulty a => exact .notice ..

/-! ### Runs in two languages -/

/-- Two computations that end alike: with the same fault, or with results that are related. -/
inductive Agree {α β : Type} (R : α → β → Prop) : Except Fault α → Except Fault β → Prop
  | fault (e : Fault) : Agree R (.error e) (.error e)
  | result {a : α} {b : β} (h : R a b) : Agree R (.ok a) (.ok b)

namespace Agree

variable {α β γ δ : Type} {R : α → β → Prop} {S : γ → δ → Prop}

theorem refl (x : Except Fault α) : Agree Eq x x := by
  cases x with
  | error e => exact .fault e
  | ok a => exact .result rfl

theorem bind {x : Except Fault α} {y : Except Fault β} {f : α → Except Fault γ} {g : β → Except Fault δ}
    (h : Agree R x y) (hnext : ∀ a b, R a b → Agree S (f a) (g b)) : Agree S (x >>= f) (y >>= g) := by
  cases h with
  | fault e => exact .fault e
  | result h => exact hnext _ _ h

theorem foldlM {f : α → γ → Except Fault α} {g : β → γ → Except Fault β}
    (hstep : ∀ a b c, R a b → Agree R (f a c) (g b c)) (l : List γ) {a : α} {b : β} (h : R a b) :
    Agree R (l.foldlM f a) (l.foldlM g b) := by
  induction l generalizing a b with
  | nil => exact .result h
  | cons c l ih =>
    rw [List.foldlM_cons, List.foldlM_cons]
    exact (hstep a b c h).bind fun _ _ h' => ih h'

end Agree

/-- A piece of what is printed, in every language. -/
inductive Shown where
  | plain (t : Text)
  /-- A line with a tag. -/
  | line (tag message : Phrase)
  /-- A diagnostic with an excerpt of a source. -/
  | remark (m : Remark) (source : Text)

def Shown.word (lang : Language) : Shown → Text
  | plain t => t
  | line tag message => messageLine (tag.word lang) (message.word lang)
  | remark m source => (m.diagnostic lang).display source

/-- Two texts that are one printed piece in two languages. -/
def Prints (lang lang' : Language) (t t' : Text) : Prop := ∃ s : Shown, t = s.word lang ∧ t' = s.word lang'

theorem Prints.plain (t : Text) : Prints lang lang' t t := ⟨.plain t, rfl, rfl⟩

theorem Prints.line {tag tag' message message' : Text} (htag : Says lang lang' tag tag')
    (hmessage : Says lang lang' message message') :
    Prints lang lang' (messageLine tag message) (messageLine tag' message') := by
  obtain ⟨p, rfl, rfl⟩ := htag
  obtain ⟨q, rfl, rfl⟩ := hmessage
  exact ⟨.line p q, rfl, rfl⟩

namespace Log

variable {l l' : Log} {message message' : Text}

/-- Logs of one run in two languages: the same but for the words that were printed. -/
structure Retold (lang lang' : Language) (l l' : Log) : Prop where
  level : l.level = l'.level
  errorCount : l.errorCount = l'.errorCount
  warningCount : l.warningCount = l'.warningCount
  sources : l.sources = l'.sources
  printed : ∃ shown : List Shown, l.printed = shown.flatMap (·.word lang) ∧ l'.printed = shown.flatMap (·.word lang')

namespace Retold

theorem fresh (level : LogLevel) : Retold lang lang' { level } { level } := ⟨rfl, rfl, rfl, rfl, [], rfl, rfl⟩

theorem print (h : Retold lang lang' l l') {t t' : Text} (ht : Prints lang lang' t t') :
    Retold lang lang' (l.print t) (l'.print t') := by
  obtain ⟨shown, hl, hl'⟩ := h.printed
  obtain ⟨s, rfl, rfl⟩ := ht
  exact ⟨h.level, h.errorCount, h.warningCount, h.sources, shown ++ [s],
    by simp [Log.print, hl], by simp [Log.print, hl']⟩

theorem printAt (h : Retold lang lang' l l') (m : LogLevel) {t t' : Text} (ht : Prints lang lang' t t') :
    Retold lang lang' (l.printAt m t) (l'.printAt m t') := by
  rw [Log.printAt, Log.printAt, h.level]
  split
  · exact h.print ht
  · exact h

theorem info (h : Retold lang lang' l l') (tag : Text) (hmessage : Says lang lang' message message') :
    Retold lang lang' (l.info tag message) (l'.info tag message') :=
  h.printAt .verbose (.line (.plain tag) hmessage)

theorem error (h : Retold lang lang' l l') (tag : Text) (hmessage : Says lang lang' message message') :
    Retold lang lang' (l.error tag message) (l'.error tag message') := by
  have hcounted : Retold lang lang' { l with errorCount := l.errorCount + 1 }
    { l' with errorCount := l'.errorCount + 1 } :=
    ⟨h.level, congrArg (· + 1) h.errorCount, h.warningCount, h.sources, h.printed⟩
  exact hcounted.printAt .error (.line (.plain tag) hmessage)

theorem diagnostic (h : Retold lang lang' l l') (m : Remark) :
    Retold lang lang' (l.diagnostic (m.diagnostic lang)) (l'.diagnostic (m.diagnostic lang')) := by
  have hprints : Prints lang lang' ((m.diagnostic lang).display ((l.sources.get? m.file).getD []))
      ((m.diagnostic lang').display ((l'.sources.get? m.file).getD [])) := ⟨.remark m _, rfl, by rw [h.sources]; rfl⟩
  cases hwarning : m.isWarning with
  | true =>
    have hcounted : Retold lang lang' { l with warningCount := l.warningCount + 1 }
        { l' with warningCount := l'.warningCount + 1 } :=
      ⟨h.level, h.errorCount, congrArg (· + 1) h.warningCount, h.sources, h.printed⟩
    simpa [Log.diagnostic, Remark.diagnostic, hwarning] using hcounted.printAt .warning hprints
  | false =>
    have hcounted : Retold lang lang' { l with errorCount := l.errorCount + 1 }
        { l' with errorCount := l'.errorCount + 1 } :=
      ⟨h.level, congrArg (· + 1) h.errorCount, h.warningCount, h.sources, h.printed⟩
    simpa [Log.diagnostic, Remark.diagnostic, hwarning] using hcounted.printAt .error hprints

theorem diagnostics (h : Retold lang lang' l l') {ds ds' : List Diagnostic} (hds : Translated lang lang' ds ds') :
    Retold lang lang' (l.diagnostics ds) (l'.diagnostics ds') := by
  obtain ⟨remarks, rfl, rfl⟩ := hds
  induction remarks generalizing l l' with
  | nil => exact h
  | cons m remarks ih => exact ih (h.diagnostic m)

theorem summary (h : Retold lang lang' l l') : Retold lang lang' l.summary l'.summary := by
  have htext : l.summaryText = l'.summaryText := by
    rw [Log.summaryText, Log.summaryText, Log.isClean, Log.isClean, h.errorCount, h.warningCount]
  rw [Log.summary, Log.summary, htext]
  exact h.printAt .error (.plain _)

theorem addSource (h : Retold lang lang' l l') (path source : Text) :
    Retold lang lang' (l.addSource path source) (l'.addSource path source) :=
  ⟨h.level, h.errorCount, h.warningCount, congrArg (·.set path source) h.sources, h.printed⟩

end Retold

end Log

/-- One run in two languages. -/
structure Run.Retold (lang lang' : Language) (r r' : Run) : Prop where
  tree : r.tree = r'.tree
  written : r.written = r'.written
  log : r.log.Retold lang lang' r'.log

/-- What one run leaves in two languages. -/
structure Outcome.Retold (lang lang' : Language) (o o' : Outcome) : Prop where
  exitCode : o.exitCode = o'.exitCode
  tree : o.tree = o'.tree
  log : o.log.Retold lang lang' o'.log

namespace Run

variable {r r' : Run} {p : Project}

/-- A fault is reported in two runs, in each in its own words. -/
theorem Retold.report (h : Retold lang lang' r r') {f : ProjectFault} (hf : f.reworded lang = f) :
    Retold lang lang' { r with log := Run.report lang r.log f }
      { r' with log := Run.report lang' r'.log (f.reworded lang') } := by
  refine ⟨h.tree, h.written, ?_⟩
  have hlog : (Run.report lang r.log (f.reworded lang)).Retold lang lang'
      (Run.report lang' r'.log (f.reworded lang')) := by
    rw [Run.report, Run.report, f.isDiagnosed_reworded, f.isDiagnosed_reworded, f.message_reworded, f.message_reworded]
    split
    · exact h.log.diagnostics f.translated
    · exact h.log.error _ f.says
  rwa [hf] at hlog

theorem Retold.announce {l l' : Log} (h : l.Retold lang lang' l') (p : Project) :
    (Run.announce lang p l).Retold lang lang' (Run.announce lang' p l') := by
  rw [Run.announce, Run.announce]
  split
  · exact h.info _ (.notice ..)
  · exact h.info _ (.notice ..)

theorem Retold.noted (h : Retold lang lang' r r') (path : Text) : Retold lang lang' (r.noted path) (r'.noted path) := by
  rw [Run.noted, Run.noted, h.tree]
  split
  · exact h
  · exact ⟨rfl, h.written, h.log.addSource ..⟩

theorem Retold.info (h : Retold lang lang' r r') (tag : Text) {message message' : Text}
    (hmessage : Says lang lang' message message') :
    Retold lang lang' { r with log := r.log.info tag message } { r' with log := r'.log.info tag message' } :=
  ⟨h.tree, h.written, h.log.info tag hmessage⟩

/-- A file that is compiled in two runs gives the same text, or a fault that each run words in its language. -/
theorem Retold.compile (h : Retold lang lang' r r') (settings : Settings) (path : Text) :
    Agree (fun x x' => x.1.mapError (ProjectFault.reworded lang) = x.1 ∧
        x'.1 = x.1.mapError (ProjectFault.reworded lang') ∧ Retold lang lang' x.2 x'.2)
      (@Run.compile lang format settings path r) (@Run.compile lang' format settings path r') := by
  rw [@compile_eq lang, @compile_eq lang', h.tree, @compileFile_reworded lang lang']
  cases hresult : @compileFile lang format r'.tree settings path with
  | error e => exact .fault e
  | ok result => exact .result ⟨worded_of_compileFile hresult, rfl, h.noted path⟩

theorem Retold.buildFile (h : Retold lang lang' r r') (p : Project) (dir file : Text) :
    Agree (Retold lang lang') (Run.buildFile lang format p dir r file) (Run.buildFile lang' format p dir r' file) := by
  have hsaid := h.info "Build" (.notice .generating [p.inputPath file, p.outputPath dir file])
  refine (hsaid.compile p.settings (p.inputPath file)).bind ?_
  rintro ⟨result, r₁⟩ ⟨result', r₁'⟩ ⟨hworded, rfl, h₁⟩
  cases result with
  | error f => exact .result (h₁.report (Except.error.inj hworded))
  | ok code =>
    dsimp only [Except.mapError]
    rw [h₁.tree]
    cases writeOutput r₁'.tree (p.outputPath dir file) code with
    | error f => exact .result ⟨rfl, h₁.written, h₁.log.error _ f.says⟩
    | ok tree => exact .result ⟨rfl, congrArg (· + 1) h₁.written, h₁.log⟩

theorem Retold.checkFile (h : Retold lang lang' r r') (p : Project) (file : Text) :
    Agree (Retold lang lang') (Run.checkFile lang format p r file) (Run.checkFile lang' format p r' file) := by
  have hsaid := h.info "Check" (.notice .checking [p.inputPath file])
  refine (hsaid.compile p.settings (p.inputPath file)).bind ?_
  rintro ⟨result, r₁⟩ ⟨result', r₁'⟩ ⟨hworded, rfl, h₁⟩
  cases result with
  | error f => exact .result (h₁.report (Except.error.inj hworded))
  | ok code => exact .result h₁

theorem Retold.finish (h : Retold lang lang' r r') (tag : Text) {success success' : Text}
    (hsuccess : Says lang lang' success success') :
    (r.finish lang tag success).Retold lang lang' (r'.finish lang' tag success') := by
  have hsummary := h.log.summary
  rw [Run.finish, Run.finish, hsummary.errorCount]
  split
  · exact ⟨rfl, h.tree, hsummary.print (.line (.plain _) (.notice ..))⟩
  · exact ⟨rfl, h.tree, hsummary.info tag hsuccess⟩

theorem Retold.refuse (h : Retold lang lang' r r') (f : ProjectFault) :
    (r.refuse lang f).Retold lang lang' (r'.refuse lang' f) := ⟨rfl, h.tree, h.log.error _ f.says⟩

theorem Retold.build (h : Retold lang lang' r r') (input output : Text) (noImports : Bool) :
    Agree (Outcome.Retold lang lang') (Run.build lang format input output noImports r)
      (Run.build lang' format input output noImports r') := by
  rw [Run.build, Run.build, h.tree]
  cases Project.load r'.tree input with
  | error f => exact .result (h.refuse f)
  | ok loaded =>
    obtain ⟨p, hp⟩ : ∃ p, p = if noImports then loaded.keepImports else loaded := ⟨_, rfl⟩
    dsimp only
    rw [← hp]
    have hstart : Retold lang lang' { tree := r'.tree, log := Run.announce lang p r.log, written := r.written }
        { r' with log := Run.announce lang' p r'.log } := ⟨rfl, h.written, Retold.announce h.log p⟩
    refine (Agree.foldlM (fun s s' file hs => Retold.buildFile hs p _ file) p.files hstart).bind fun s s' hs => ?_
    rw [hs.written]
    exact .result (hs.finish _ (.notice ..))

theorem Retold.check (h : Retold lang lang' r r') (input : Text) :
    Agree (Outcome.Retold lang lang') (Run.check lang format input r) (Run.check lang' format input r') := by
  rw [Run.check, Run.check, h.tree]
  cases Project.load r'.tree input with
  | error f => exact .result (h.refuse f)
  | ok loaded =>
    have hstart : Retold lang lang' { tree := r'.tree, log := Run.announce lang loaded r.log, written := r.written }
        { r' with log := Run.announce lang' loaded r'.log } := ⟨rfl, h.written, Retold.announce h.log loaded⟩
    exact (Agree.foldlM (fun s s' file hs => Retold.checkFile hs loaded.keepImports file) loaded.files hstart).bind
      fun s s' hs => .result (hs.finish _ (.notice ..))

end Run

/-! ### Sources in two languages -/

/-- All that is told of one source: what was read, the symbols of the analysis and the generated text. -/
structure Account where
  file : DeclFile
  errors : List Diagnostic
  symbols : Recording
  diagnostics : List Diagnostic
  /-- The generated text, if the analysis has no findings. -/
  code : Option Text

/-- Tells of a source that is read, analysed and turned into code in one language. -/
def account [Language] (settings : Settings) (format : DeclFormat) (name source : Text) : Except Fault Account := do
  let read ← format.read name source
  let a ← Analysis.ofFile settings read.file
  let symbols ← a.record {}
  let code ← a.generate settings
  return {
    file := read.file
    errors := read.problems.map (Located.diagnostic name)
    symbols
    diagnostics := a.diagnostics
    code := code.toOption.map (·.text) }

/-- One account in two languages. -/
structure Account.Retold (lang lang' : Language) (a a' : Account) : Prop where
  file : a.file = a'.file
  errors : Translated lang lang' a.errors a'.errors
  symbols : a.symbols = a'.symbols
  diagnostics : Translated lang lang' a.diagnostics a'.diagnostics
  code : a.code = a'.code

theorem account_retold (settings : Settings) (format : DeclFormat) (name source : Text) :
    Agree (Account.Retold lang lang') (@account lang settings format name source)
      (@account lang' settings format name source) := by
  rw [@account.eq_def lang', @account.eq_def lang, @DeclFormat.read_reworded lang lang']
  cases hread : @DeclFormat.read lang format name source with
  | error e => exact .fault e
  | ok read =>
    have hfile : (read.reworded lang').file = read.file := rfl
    dsimp only [Except.map, bind, Except.bind]
    rw [hfile, @Analysis.ofFile_reworded lang lang']
    cases hofFile : @Analysis.ofFile lang settings read.file with
    | error e => exact .fault e
    | ok a =>
      dsimp only [Except.map]
      rw [Analysis.record_reworded, (@Analysis.complete_of_ofFile lang _ _ a hofFile).1.generate_reworded]
      cases a.record {} with
      | error e => exact .fault e
      | ok symbols =>
        dsimp only
        cases a.generate settings with
        | error e => exact .fault e
        | ok code =>
          have herrors := @ReadResult.translated lang lang' read name
          have hfindings := @Analysis.translated lang lang' a
          rw [ReadResult.worded_of_read hread] at herrors
          rw [Analysis.worded_of_ofFile hofFile] at hfindings
          exact .result ⟨rfl, herrors, rfl, hfindings, by cases code <;> rfl⟩

theorem execute_retold (format : Formatter) (t : FileTree) (args : List Text) :
    Agree (Outcome.Retold lang lang') (execute lang format t args) (execute lang' format t args) := by
  rw [execute, execute]
  cases Invocation.parse args with
  | error f => exact .result ⟨rfl, rfl, (Log.Retold.fresh .verbose).print (.line (.notice ..) (.plain _))⟩
  | ok i =>
    have hstart : Run.Retold lang lang' { tree := t, log := { level := i.level } }
        { tree := t, log := { level := i.level } } :=
      ⟨rfl, rfl, .fresh i.level⟩
    dsimp only
    cases i.task with
    | build input output noImports => exact hstart.build input output noImports
    | check input => exact hstart.check input
    | version => exact .result ⟨rfl, rfl, hstart.log.print (.line (.plain _) (.notice ..))⟩

/-- The language decides about words only.  Whatever source is compiled in two languages, what is read, the symbols, the
number, order and places of the diagnostics and the generated text are the same; and whatever the program is called
with, it ends with the same fault or leaves the same tree, exit code and counts, and the same lines in other words. -/
theorem language_changes_words_only (lang lang' : Language) :
    (∀ settings format name source, Agree (Account.Retold lang lang') (@account lang settings format name source)
      (@account lang' settings format name source)) ∧
    ∀ format t args, Agree (Outcome.Retold lang lang') (execute lang format t args) (execute lang' format t args) :=
  ⟨account_retold, execute_retold⟩

end MeaningForest

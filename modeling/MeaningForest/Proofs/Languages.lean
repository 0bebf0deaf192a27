import MeaningForest.Compilation.Session
import MeaningForest.Project.Basic
import MeaningForest.Proofs.Analysis
import MeaningForest.Proofs.Rewording
import MeaningForest.Proofs.Unplaced

/-!
# Analysis in two languages

Findings are worded when they are made, and no later step looks at them.  The forest of a file and the profiles of its
meanings are the same in two languages, with the same findings in other words, and so are the symbols
(`Analysis.ofFile_reworded`, `Analysis.record_reworded`).  An analysis without findings is the very same in both, so its
code is (`Analysis.generate_reworded`).
-/

namespace MeaningForest

variable {lang lang' : Language}

/-- A run along a list that only adds findings adds the same ones in other words. -/
theorem foldl_reworded {σ α : Type} {f f' : σ × List Finding → α → σ × List Finding}
    (step : ∀ acc a, f' (acc.map id (List.map (Located.reworded lang))) a =
      (f acc a).map id (List.map (Located.reworded lang))) (l : List α) (start : σ) :
    l.foldl f' (start, []) = (l.foldl f (start, [])).map id (List.map (Located.reworded lang)) := by
  have hfold : l.foldl f' (Prod.map id (List.map (Located.reworded lang)) (start, [])) = _ := List.foldl_hom _ step
  exact hfold

/-- A result that rewording leaves as it is, where all results are reworded. -/
theorem eq_of_map_eq {ε α : Type} {x : Except ε α} {g : α → α} (hmap : x = x.map g) {a : α} (h : x = .ok a) :
    g a = a := by
  rw [h] at hmap
  exact (Except.ok.inj hmap).symm

/-- What is read in a language is worded in it. -/
theorem ReadResult.worded_of_read {format : DeclFormat} {name source : Text} {r : ReadResult}
    (h : @DeclFormat.read lang format name source = .ok r) : r.reworded lang = r :=
  eq_of_map_eq (DeclFormat.read_reworded format name source) h

namespace Forest

/-! ### Forests -/

theorem register_reworded (arena : Text) (acc : List MeaningDecl × List Finding) (d : MeaningDecl) :
    @register lang' arena (acc.map id (List.map (Located.reworded lang'))) d =
      (@register lang arena acc d).map id (List.map (Located.reworded lang')) := by
  rw [@register.eq_def lang', @register.eq_def lang, Prod.map_fst, id_eq]
  cases rejection? arena acc.1 d <;> simp [Prod.map]

theorem unknownParent?_reworded (ds : List MeaningDecl) (d : MeaningDecl) :
    @unknownParent? lang' ds d = (@unknownParent? lang ds d).map (Located.reworded lang') := by
  rw [@unknownParent?.eq_def lang', @unknownParent?.eq_def lang, apply_ite (Option.map (Located.reworded lang'))]
  rfl

theorem breakCycle_reworded (acc : Forest × List Finding) (n : ForestNode) :
    @breakCycle lang' (acc.map id (List.map (Located.reworded lang'))) n =
      (@breakCycle lang acc n).map id (List.map (Located.reworded lang')) := by
  rw [@breakCycle.eq_def lang', @breakCycle.eq_def lang, Prod.map_fst, id_eq]
  cases acc.1.cycle? n.name <;> simp [Prod.map]

theorem extend_reworded (f : Forest) (arena : Text) (decls : List MeaningDecl) :
    @extend lang' f arena decls = (@extend lang f arena decls).map id (List.map (Located.reworded lang')) := by
  have hregistered := foldl_reworded (@register_reworded lang lang' arena) decls (f.nodes.map (·.decl))
  have hunknown : @unknownParent? lang' = fun ds d => (@unknownParent? lang ds d).map (Located.reworded lang') :=
    funext₂ unknownParent?_reworded
  have hbroken := fun nodes : List ForestNode => foldl_reworded (@breakCycle_reworded lang lang') nodes ⟨nodes⟩
  rw [@extend.eq_def lang', @extend.eq_def lang, hregistered, hunknown]
  obtain ⟨registered, rejected⟩ := decls.foldl (@register lang arena) (f.nodes.map (·.decl), [])
  simp only [Prod.map, id_eq, hbroken, ← List.map_filterMap, List.map_append]

/-! ### Generated names -/

theorem takeTopLevel_reworded (f : Forest) (acc : Owners × List Finding) (n : ForestNode) :
    @takeTopLevel lang' f (acc.map id (List.map (Located.reworded lang'))) n =
      (@takeTopLevel lang f acc n).map id (List.map (Located.reworded lang')) := by
  rw [@takeTopLevel.eq_def lang', @takeTopLevel.eq_def lang, Prod.map_fst, id_eq]
  obtain ⟨owners, clash⟩ := takeNames n.name acc.1 (topLevelNames n.name (f.submeanings n.name))
  cases clash <;> simp [Prod.map]

theorem nameFindings_reworded (f : Forest) (arena : Text) :
    @nameFindings lang' f arena = (@nameFindings lang f arena).map (Located.reworded lang') := by
  have htaken := foldl_reworded (@takeTopLevel_reworded lang lang' f) f.nodes []
  rw [@nameFindings.eq_def lang', @nameFindings.eq_def lang, htaken]
  obtain ⟨owners, clashes⟩ := f.nodes.foldl (@takeTopLevel lang f) ([], [])
  simp only [Prod.map, id_eq, List.map_append, List.map_map, apply_ite (List.map (Located.reworded lang'))]
  rfl

end Forest

/-! ### Profiles -/

namespace Profile

/-- A profile with its findings in the words of a language. -/
def reworded (lang : Language) (p : Profile) : Profile :=
  { p with findings := p.findings.map (Located.reworded lang) }

variable (above : List Profile) (p : Profile)

theorem report_reworded (position : Position) (problem : AnalysisProblem) :
    @report lang' (p.reworded lang') position problem = (@report lang p position problem).reworded lang' := by
  simp [report, reworded]

theorem conflict?_reworded (kind : MemberKind) (names : List Text) :
    (p.reworded lang).conflict? (above.map (reworded lang)) kind names = p.conflict? above kind names := by
  simp only [conflict?, List.flatMap_map]
  rfl

theorem occupy_reworded (position : Position) (kind : MemberKind) (names : List Text) {next next' : Profile → Profile}
    (hnext : ∀ p, next' (p.reworded lang') = (next p).reworded lang') :
    @occupy lang' (above.map (reworded lang')) (p.reworded lang') position kind names next' =
      (@occupy lang above p position kind names next).reworded lang' := by
  rw [@occupy.eq_def lang', @occupy.eq_def lang, conflict?_reworded]
  cases p.conflict? above kind names with
  | some c => exact report_reworded p position _
  | none => exact hnext { p with members := p.members ++ names.map fun name => ⟨p.name, name, kind⟩ }

theorem reserve_reworded (name : Text) : @reserve lang' (above.map (reworded lang')) (p.reworded lang') name =
    (@reserve lang above p name).reworded lang' :=
  occupy_reworded above p p.decl.position .generated [name] fun _ => rfl

theorem addField_reworded (d : FieldDecl) : @addField lang' (above.map (reworded lang')) (p.reworded lang') d =
    (@addField lang above p d).reworded lang' := by
  rw [@addField.eq_def lang', @addField.eq_def lang, apply_ite (reworded lang')]
  refine if_congr Iff.rfl (report_reworded p d.position _) ?_
  exact occupy_reworded above p d.position .accessor [d.name, setterName d.name] fun _ => rfl

theorem setParams_reworded : @setParams lang' (p.reworded lang') = (@setParams lang p).reworded lang' := by
  have hctor : (p.reworded lang').ctor = p.ctor := rfl
  rw [@setParams.eq_def lang', @setParams.eq_def lang, hctor]
  dsimp only
  cases Signature.parse p.ctor.decl.params with
  | error fault => exact report_reworded p p.ctor.decl.position _
  | ok s =>
    rw [apply_ite (reworded lang')]
    exact if_congr Iff.rfl (report_reworded p p.ctor.decl.position _) rfl

theorem setTypeParams_reworded : @setTypeParams lang' (p.reworded lang') = (@setTypeParams lang p).reworded lang' := by
  have hctor : (p.reworded lang').ctor = p.ctor := rfl
  rw [@setTypeParams.eq_def lang', @setTypeParams.eq_def lang, hctor]
  dsimp only
  cases parseTypeParams p.ctor.decl.typeParams with
  | error fault => exact report_reworded p p.ctor.decl.position _
  | ok names => rfl

theorem checkSuper_reworded : @checkSuper lang' (above.map (reworded lang')) (p.reworded lang') =
    (@checkSuper lang above p).reworded lang' := by
  have hctor : (p.reworded lang').ctor = p.ctor := rfl
  rw [@checkSuper.eq_def lang', @checkSuper.eq_def lang, hctor, List.getLast?_map]
  cases p.ctor.decl.superArgs with
  | some args =>
    cases above.getLast? with
    | none => exact report_reworded p p.ctor.decl.position _
    | some parent => rfl
  | none =>
    cases above.getLast? with
    | none => rfl
    | some parent =>
      simp only [Option.map_some, apply_ite (reworded lang')]
      exact if_congr Iff.rfl rfl (report_reworded p p.ctor.decl.position _)

theorem setConstructor_reworded : @setConstructor lang' (above.map (reworded lang')) (p.reworded lang') =
    (@setConstructor lang above p).reworded lang' := by
  have hfurther : p.decl.constructors.tail.foldl (fun p d => @report lang' p d.position (.duplicateConstructor p.name))
      (p.reworded lang') = (p.decl.constructors.tail.foldl (fun p d =>
        @report lang p d.position (.duplicateConstructor p.name)) p).reworded lang' :=
    List.foldl_hom (reworded lang') fun p d => report_reworded p d.position (.duplicateConstructor p.name)
  have hdecl : (p.reworded lang').decl = p.decl := rfl
  rw [@setConstructor.eq_def lang', @setConstructor.eq_def lang, hdecl]
  dsimp only
  rw [hfurther, @setParams_reworded lang, @setTypeParams_reworded lang, @checkSuper_reworded lang]

theorem inheritedMethod?_reworded (name : Text) :
    inheritedMethod? (above.map (reworded lang)) name = inheritedMethod? above name := by
  rw [inheritedMethod?, inheritedMethod?, ← List.map_reverse, List.findSome?_map]
  rfl

theorem defineMethod_reworded (f : Method) : @defineMethod lang' (above.map (reworded lang')) (p.reworded lang') f =
    (@defineMethod lang above p f).reworded lang' := by
  rw [@defineMethod.eq_def lang', @defineMethod.eq_def lang, inheritedMethod?_reworded]
  dsimp only
  rw [apply_ite (reworded lang')]
  refine if_congr Iff.rfl (report_reworded p f.decl.position _) ?_
  cases inheritedMethod? above f.name with
  | some base => exact report_reworded p f.decl.position _
  | none => exact occupy_reworded above p f.decl.position .method [f.name] fun _ => rfl

theorem overrideMethod_reworded (f : Method) : @overrideMethod lang' (above.map (reworded lang')) (p.reworded lang') f =
    (@overrideMethod lang above p f).reworded lang' := by
  rw [@overrideMethod.eq_def lang', @overrideMethod.eq_def lang, inheritedMethod?_reworded]
  cases inheritedMethod? above f.name with
  | none => exact report_reworded p f.decl.position _
  | some base =>
    dsimp only
    rw [apply_ite (reworded lang'), apply_ite (reworded lang')]
    refine if_congr Iff.rfl (report_reworded p f.decl.position _) (if_congr Iff.rfl rfl ?_)
    exact report_reworded p f.decl.position _

theorem addMethod_reworded (d : MethodDecl) : @addMethod lang' (above.map (reworded lang')) (p.reworded lang') d =
    (@addMethod lang above p d).reworded lang' := by
  have hname : (p.reworded lang').name = p.name := rfl
  rw [@addMethod.eq_def lang', @addMethod.eq_def lang, hname]
  cases readMethod p.name d with
  | error problem => exact report_reworded p d.position problem
  | ok f =>
    dsimp only
    rw [apply_ite (reworded lang')]
    exact if_congr Iff.rfl (overrideMethod_reworded above p f) (defineMethod_reworded above p f)

theorem ofDecl_reworded (d : MeaningDecl) (ascending submeanings : List Text) :
    @ofDecl lang' (above.map (reworded lang')) d ascending submeanings =
      (@ofDecl lang above d ascending submeanings).reworded lang' := by
  obtain ⟨p, hp⟩ : ∃ p : Profile, p = { decl := d, ascending, submeanings, ctor := { decl := constructorDecl d } } :=
    ⟨_, rfl⟩
  have hreserved : p.reservedNames.foldl (@reserve lang' (above.map (reworded lang'))) (p.reworded lang') =
      (p.reservedNames.foldl (@reserve lang above) p).reworded lang' := List.foldl_hom _ (reserve_reworded above)
  have hfields : ∀ p : Profile, d.fields.foldl (@addField lang' (above.map (reworded lang'))) (p.reworded lang') =
      (d.fields.foldl (@addField lang above) p).reworded lang' := fun _ => List.foldl_hom _ (addField_reworded above)
  have hmethods : ∀ p : Profile, d.methods.foldl (@addMethod lang' (above.map (reworded lang'))) (p.reworded lang') =
      (d.methods.foldl (@addMethod lang above) p).reworded lang' := fun _ => List.foldl_hom _ (addMethod_reworded above)
  have hstart : p.reworded lang' = p := by rw [hp]; rfl
  rw [hstart] at hreserved
  simp only [ofDecl, ← hp, hreserved, hfields, @setConstructor_reworded lang, hmethods]

end Profile

namespace Analysis

/-! ### Whole files -/

/-- An analysis with its findings in the words of a language. -/
def reworded (lang : Language) (a : Analysis) : Analysis :=
  { a with
    profiles := a.profiles.map (Profile.reworded lang)
    findings := a.findings.map (Located.reworded lang) }

theorem find_reworded (made : List Profile) (m : Text) :
    find (made.map (Profile.reworded lang)) m = (find made m).map (Profile.reworded lang) := by
  have hfind : (made.map (Profile.reworded lang)).find? (·.name == m) =
      (made.find? (·.name == m)).map (Profile.reworded lang) := List.find?_map
  rw [find, find, hfind]
  cases made.find? (·.name == m) <;> rfl

theorem step_reworded (f : Forest) (made : List Profile) (n : ForestNode × List Text) :
    @step lang' f (made.map (Profile.reworded lang')) n =
      (@step lang f made n).map (List.map (Profile.reworded lang')) := by
  have habove : n.2.dropLast.mapM (find (made.map (Profile.reworded lang'))) =
      (n.2.dropLast.mapM (find made)).map (List.map (Profile.reworded lang')) := by
    rw [← mapM_map_of_step (find_reworded made) n.2.dropLast, List.map_id']
  rw [@step.eq_def lang', @step.eq_def lang, habove]
  cases n.2.dropLast.mapM (find made) with
  | error e => rfl
  | ok above =>
    show Except.ok _ = Except.ok _
    rw [@Profile.ofDecl_reworded lang, List.map_append]
    rfl

theorem addMeanings_reworded (a : Analysis) :
    @addMeanings lang' (a.reworded lang') = (@addMeanings lang a).reworded lang' := by
  have hforest : (a.reworded lang').forest = a.forest := rfl
  rw [@addMeanings.eq_def lang', @addMeanings.eq_def lang, hforest]
  simp [reworded, @Forest.extend_reworded lang lang']

theorem checkNames_reworded (a : Analysis) :
    @checkNames lang' (a.reworded lang') = (@checkNames lang a).reworded lang' := by
  simp [checkNames, reworded, @Forest.nameFindings_reworded lang lang']

theorem foldlM_step_reworded (f : Forest) (ranked : List (ForestNode × List Text)) (made : List Profile) :
    ranked.foldlM (@step lang' f) (made.map (Profile.reworded lang')) =
      (ranked.foldlM (@step lang f) made).map (List.map (Profile.reworded lang')) := by
  induction ranked generalizing made with
  | nil => rfl
  | cons n ranked ih =>
    rw [List.foldlM_cons, List.foldlM_cons, @step_reworded lang]
    cases @step lang f made n with
    | error e => rfl
    | ok made => exact ih made

theorem addProfiles_reworded (a : Analysis) :
    @addProfiles lang' (a.reworded lang') = (@addProfiles lang a).map (reworded lang') := by
  have hforest : (a.reworded lang').forest = a.forest := rfl
  rw [@addProfiles.eq_def lang', @addProfiles.eq_def lang, hforest]
  cases a.forest.byDepth with
  | error e => rfl
  | ok ranked =>
    have hmade := @foldlM_step_reworded lang lang' a.forest ranked a.profiles
    show ranked.foldlM (@step lang' a.forest) (a.profiles.map (Profile.reworded lang')) >>= _ =
      Except.map _ (ranked.foldlM (@step lang a.forest) a.profiles >>= _)
    rw [hmade]
    cases ranked.foldlM (@step lang a.forest) a.profiles with
    | error e => rfl
    | ok made =>
      show Except.ok _ = Except.ok _
      simp only [reworded, List.map_append, List.map_flatMap, List.flatMap_map]
      rfl

theorem fill_reworded (a : Analysis) : @fill lang' (a.reworded lang') = (@fill lang a).map (reworded lang') := by
  rw [@fill.eq_def lang', @fill.eq_def lang, @addMeanings_reworded lang, @checkNames_reworded lang,
    @addProfiles_reworded lang]

theorem ofFile_reworded (settings : Settings) (file : DeclFile) :
    @ofFile lang' settings file = (@ofFile lang settings file).map (reworded lang') :=
  fill_reworded (start settings file)

/-- What is analysed in a language is worded in it. -/
theorem worded_of_ofFile {settings : Settings} {file : DeclFile} {a : Analysis}
    (h : @ofFile lang settings file = .ok a) : a.reworded lang = a :=
  eq_of_map_eq (ofFile_reworded settings file) h

theorem record_reworded (a : Analysis) (t : SymbolTable) : (a.reworded lang).record t = a.record t := by
  have hprofiles : ∀ r, (a.reworded lang).profiles.foldlM Recording.addProfile r =
      a.profiles.foldlM Recording.addProfile r := fun _ => List.foldlM_map
  rw [record, record]
  simp only [hprofiles]
  rfl

/-- What has no findings has nothing that is worded. -/
theorem Complete.reworded_eq {a : Analysis} (ha : @Complete lang a) (hclean : a.findings = []) :
    a.reworded lang' = a := by
  have hprofile : ∀ p ∈ a.profiles, p.reworded lang' = p := fun p hp => by
    rw [Profile.reworded, ha.findings_profile hclean hp, List.map_nil, ← ha.findings_profile hclean hp]
  have hprofiles : a.profiles.map (Profile.reworded lang') = a.profiles :=
    (List.map_congr_left hprofile).trans (List.map_id _)
  rw [reworded, hprofiles, hclean, List.map_nil, ← hclean]

end Analysis

/-! ### Compilation -/

/-- A rejection in the words of a language. -/
def Rejection.reworded (lang : Language) : Rejection → Rejection
  | unreadable file problems => unreadable file (problems.map (Located.reworded lang))
  | faulty a => faulty (a.reworded lang)
  | broken file source fault => broken file source fault

/-- The fault of a project in the words of a language. -/
def ProjectFault.reworded (lang : Language) : ProjectFault → ProjectFault
  | rejected path cause => rejected path (cause.reworded lang)
  | f => f

theorem Analysis.Complete.generate_reworded {a : Analysis} (ha : @Complete lang a) (settings : Settings) :
    (a.reworded lang').generate settings = (a.generate settings).map (Except.mapError (Rejection.reworded lang')) := by
  rw [generate, generate]
  by_cases hclean : a.findings = []
  · rw [ha.reworded_eq hclean, hclean]
    show (a.fileCode settings >>= _) = Except.map _ (a.fileCode settings >>= _)
    cases a.fileCode settings <;> rfl
  · have hfaulty : ¬ (a.reworded lang').findings.isEmpty ∧ ¬ a.findings.isEmpty := by simpa [reworded] using hclean
    rw [if_neg hfaulty.1, if_neg hfaulty.2]
    rfl

theorem DeclFile.generate_reworded (settings : Settings) (f : DeclFile) :
    @DeclFile.generate lang' settings f =
      (@DeclFile.generate lang settings f).map (Except.mapError (Rejection.reworded lang')) := by
  rw [@DeclFile.generate.eq_def lang', @DeclFile.generate.eq_def lang, @Analysis.ofFile_reworded lang]
  cases ha : @Analysis.ofFile lang settings f with
  | error e => rfl
  | ok a => exact (@Analysis.complete_of_ofFile lang settings f a ha).1.generate_reworded settings

theorem DeclFile.compile_reworded (format : Formatter) (settings : Settings) (f : DeclFile) :
    @DeclFile.compile lang' format settings f =
      (@DeclFile.compile lang format settings f).map (Except.mapError (Rejection.reworded lang')) := by
  rw [@DeclFile.compile.eq_def lang', @DeclFile.compile.eq_def lang, @DeclFile.generate_reworded lang]
  rcases @DeclFile.generate lang settings f with e | r | code
  · rfl
  · rfl
  · dsimp only [Except.map, Except.mapError, bind, Except.bind]
    cases format settings.fixImports code.text <;> rfl

theorem ReadResult.accept_reworded (r : ReadResult) (name : Text) :
    (r.reworded lang).accept name = (r.accept name).mapError (Rejection.reworded lang) := by
  obtain ⟨file, problems⟩ := r
  cases problems <;> rfl

theorem compileText_reworded (format : Formatter) (settings : Settings) (path text : Text) :
    @compileText lang' format settings path text =
      (@compileText lang format settings path text).map (Except.mapError (ProjectFault.reworded lang')) := by
  rw [@compileText.eq_def lang', @compileText.eq_def lang, @DeclFormat.read_reworded lang]
  cases @DeclFormat.read lang (.ofPath path) path text with
  | error e => rfl
  | ok read =>
    dsimp only [Except.map, bind, Except.bind]
    rw [ReadResult.accept_reworded]
    cases read.accept path with
    | error r => rfl
    | ok file =>
      dsimp only [Except.mapError]
      rw [@DeclFile.compile_reworded lang]
      rcases @DeclFile.compile lang format settings file with e | r | code <;> rfl

/-- A file that is compiled in two languages gives the same text, or it is rejected for the same reasons in other
words. -/
theorem compileFile_reworded (format : Formatter) (t : FileTree) (settings : Settings) (path : Text) :
    @compileFile lang' format t settings path =
      (@compileFile lang format t settings path).map (Except.mapError (ProjectFault.reworded lang')) := by
  rw [@compileFile.eq_def lang', @compileFile.eq_def lang, readDeclarations]
  cases t.read path with
  | error cause => rfl
  | ok text => exact compileText_reworded format settings path text


/-- What a file is rejected for in a language is worded in it. -/
theorem worded_of_compileFile {format : Formatter} {t : FileTree} {settings : Settings} {path : Text}
    {result : Except ProjectFault Text} (h : @compileFile lang format t settings path = .ok result) :
    result.mapError (ProjectFault.reworded lang) = result :=
  eq_of_map_eq (compileFile_reworded format t settings path) h

end MeaningForest

import MeaningForest.Analysis.Profile

/-!
# Making profiles

A profile is made declaration by declaration.  For each kind of declaration there is one lemma that says all that can
happen: the declaration is reported and nothing else changes, or it is added and then certain checks have passed
(`reserve_cases`, `addField_cases`, `setConstructor_frame`, `addMethod_cases`).  From them follow

* what holds of every profile, with or without findings (`Consistent`, `ofDecl_consistent`);
* that a profile without findings has all the fields, methods and overrides that are declared (`ofDecl_clean`).
-/

namespace MeaningForest.Profile

variable {lang : Language}

variable (above : List Profile)

/-! ### What one declaration does -/

/-- The member entries of names. -/
def entries (p : Profile) (kind : MemberKind) (names : List Text) : List Member :=
  names.map fun name => ⟨p.name, name, kind⟩

/-- Taking names is reported, or all of them are free and taken. -/
theorem occupy_cases (p : Profile) (position : Position) (kind : MemberKind) (names : List Text)
    (next : Profile → Profile) :
    (∃ problem, p.occupy above position kind names next = p.report position problem) ∨
      (p.conflict? above kind names = none ∧
        p.occupy above position kind names next =
          next { p with members := p.members ++ p.entries kind names }) := by
  rw [occupy]
  cases h : p.conflict? above kind names with
  | none => exact .inr ⟨rfl, rfl⟩
  | some c => exact .inl ⟨_, rfl⟩

theorem reserve_cases (p : Profile) (name : Text) :
    (∃ problem, p.reserve above name = p.report p.decl.position problem) ∨
      (p.conflict? above .generated [name] = none ∧
        p.reserve above name = { p with members := p.members ++ p.entries .generated [name] }) :=
  p.occupy_cases above _ _ _ id

/-- The slot of a declared field. -/
def slotOf (d : FieldDecl) : FieldSlot := ⟨d.name, d.isRef, d.type, initOf d⟩

theorem addField_cases (p : Profile) (d : FieldDecl) :
    (∃ problem, p.addField above d = p.report d.position problem) ∨
      ((∀ f ∈ p.fields, f.name ≠ d.name) ∧ p.conflict? above .accessor [d.name, setterName d.name] = none ∧
        p.addField above d =
          { p with members := p.members ++ p.entries .accessor [d.name, setterName d.name]
                   fields := p.fields ++ [slotOf d] }) := by
  rw [addField]
  split
  · exact .inl ⟨_, rfl⟩
  · rename_i hnew
    rcases p.occupy_cases above d.position .accessor [d.name, setterName d.name]
      (fun p => { p with fields := p.fields ++ [slotOf d] }) with h | ⟨hfree, h⟩
    · exact .inl h
    · refine .inr ⟨?_, hfree, h⟩
      simpa using hnew

/-- `q` differs from `p` in findings that were added and in how the same constructor was read. -/
def SameButCtor (p q : Profile) : Prop :=
  ∃ ctor fs, ctor.decl = p.ctor.decl ∧ q = { p with ctor := ctor, findings := p.findings ++ fs }

theorem SameButCtor.refl (p : Profile) : SameButCtor p p := ⟨p.ctor, [], rfl, by simp⟩

theorem SameButCtor.trans {p q r : Profile} (h₁ : SameButCtor p q) (h₂ : SameButCtor q r) : SameButCtor p r := by
  obtain ⟨c₁, f₁, hc₁, rfl⟩ := h₁
  obtain ⟨c₂, f₂, hc₂, rfl⟩ := h₂
  exact ⟨c₂, f₁ ++ f₂, hc₂.trans hc₁, by simp⟩

theorem sameButCtor_report (p : Profile) (position : Position) (problem : AnalysisProblem) :
    SameButCtor p (p.report position problem) :=
  ⟨p.ctor, [.found position problem], rfl, rfl⟩

theorem sameButCtor_ctor (p : Profile) {ctor : Constructor} (h : ctor.decl = p.ctor.decl) :
    SameButCtor p { p with ctor := ctor } :=
  ⟨ctor, [], h, by simp⟩

theorem setParams_frame (p : Profile) : SameButCtor p p.setParams := by
  rw [setParams]
  split
  · exact sameButCtor_report _ _ _
  · split
    · exact sameButCtor_report _ _ _
    · exact sameButCtor_ctor p rfl

theorem setTypeParams_frame (p : Profile) : SameButCtor p p.setTypeParams := by
  rw [setTypeParams]
  split
  · exact sameButCtor_report _ _ _
  · exact sameButCtor_ctor p rfl

theorem checkSuper_frame (p : Profile) : SameButCtor p (p.checkSuper above) := by
  rw [checkSuper]
  split
  · exact sameButCtor_report _ _ _
  · split
    · exact .refl p
    · exact sameButCtor_report _ _ _
  · exact .refl p

theorem setConstructor_frame (p : Profile) : SameButCtor p (p.setConstructor above) := by
  have hextra : ∀ (ds : List ConstructorDecl) (p : Profile),
      SameButCtor p (ds.foldl (fun p d => p.report d.position (.duplicateConstructor p.name)) p) := by
    intro ds
    induction ds with
    | nil => exact .refl
    | cons d ds ih => exact fun p => (sameButCtor_report p _ _).trans (ih _)
  rw [setConstructor]
  exact (hextra _ p).trans ((setParams_frame _).trans ((setTypeParams_frame _).trans (checkSuper_frame _ _)))

theorem setParams_clean {p : Profile} (h : p.setParams.findings = []) : ∃ params,
    Signature.parse p.ctor.decl.params = .ok params ∧ p.setParams.ctor = { p.ctor with params } := by
  rw [setParams] at h ⊢
  cases hparse : Signature.parse p.ctor.decl.params with
  | error fault => simp [hparse, report] at h
  | ok params =>
    by_cases hunnamed : params.unnamed
    · simp [hparse, hunnamed, report] at h
    · exact ⟨params, rfl, by simp [hunnamed]⟩

theorem setTypeParams_clean {p : Profile} (h : p.setTypeParams.findings = []) : ∃ names,
    parseTypeParams p.ctor.decl.typeParams = .ok names ∧
      p.setTypeParams.ctor = { p.ctor with typeParams := names } := by
  rw [setTypeParams] at h ⊢
  cases hparse : parseTypeParams p.ctor.decl.typeParams with
  | error fault => simp [hparse, report] at h
  | ok names => exact ⟨names, rfl, rfl⟩

theorem checkSuper_ctor (p : Profile) : (p.checkSuper above).ctor = p.ctor := by
  rw [checkSuper]
  split
  · rfl
  · split <;> rfl
  · rfl

/-- Without findings the parameters of the constructor are those that its declaration has. -/
theorem setConstructor_clean {p : Profile} (h : (p.setConstructor above).findings = []) :
    Signature.parse p.ctor.decl.params = .ok (p.setConstructor above).ctor.params ∧
      parseTypeParams p.ctor.decl.typeParams = .ok (p.setConstructor above).ctor.typeParams := by
  rw [setConstructor] at h ⊢
  generalize hq : p.decl.constructors.tail.foldl (fun p d => p.report d.position (.duplicateConstructor p.name)) p = q
    at h ⊢
  have hdecl : q.ctor.decl = p.ctor.decl := by
    rw [← hq]
    exact List.foldlRecOn (motive := fun r : Profile => r.ctor.decl = p.ctor.decl) _ _ rfl fun _ hr _ _ => hr
  obtain ⟨_, _, -, hsuper⟩ := checkSuper_frame above q.setParams.setTypeParams
  obtain ⟨_, _, -, htype⟩ := setTypeParams_frame q.setParams
  have htypes : q.setParams.setTypeParams.findings = [] := by
    rw [hsuper] at h
    exact (List.append_eq_nil_iff.1 h).1
  have hparams : q.setParams.findings = [] := by
    rw [htype] at htypes
    exact (List.append_eq_nil_iff.1 htypes).1
  obtain ⟨params, hparse, hctor⟩ := setParams_clean hparams
  obtain ⟨names, hparse', hctor'⟩ := setTypeParams_clean htypes
  rw [checkSuper_ctor, hctor', hctor]
  rw [hctor] at hparse'
  rw [hdecl] at hparse hparse'
  exact ⟨hparse, hparse'⟩

private theorem mapError_ok {ε ε' α : Type} (g : ε → ε') (x : α) : (Except.ok x).mapError g = Except.ok x := rfl

private theorem mapError_error {ε ε' α : Type} (g : ε → ε') (e : ε) :
    (Except.error e : Except ε α).mapError g = Except.error (g e) := rfl

/-- A method that can be read has the declaration it was read from. -/
theorem readMethod_ok {m : Text} {d : MethodDecl} {f : Method} (h : readMethod m d = .ok f) :
    f.owner = m ∧ f.decl = d ∧ Signature.parse d.params = .ok f.params ∧ f.params.unnamed = false ∧
      parseResults d.results = .ok f.results := by
  simp only [readMethod, bind, Except.bind, pure, Except.pure, throw, throwThe, MonadExceptOf.throw] at h
  split at h
  · cases h
  · cases hp : Signature.parse d.params with
    | error e => simp [hp, mapError_error] at h
    | ok params =>
      simp only [hp, mapError_ok] at h
      split at h
      · cases h
      · rename_i hnamed
        cases hr : parseResults d.results with
        | error e => simp [hr, mapError_error] at h
        | ok results =>
          simp only [hr, mapError_ok, Except.ok.injEq] at h
          subst h
          exact ⟨rfl, rfl, rfl, by simpa using hnamed, rfl⟩

/-- The way from the owner of a method down to a meaning with the given ancestry. -/
def pathBelow (base : Method) (ascending : List Text) : List Text := (after? base.owner ascending).getD ascending

theorem defineMethod_cases (p : Profile) (f : Method) :
    (∃ problem, p.defineMethod above f = p.report f.decl.position problem) ∨
      ((∀ g ∈ p.methods, g.name ≠ f.name) ∧ inheritedMethod? above f.name = none ∧
        p.conflict? above .method [f.name] = none ∧
        p.defineMethod above f =
          { p with members := p.members ++ p.entries .method [f.name], methods := p.methods ++ [f] }) := by
  rw [defineMethod]
  split
  · exact .inl ⟨_, rfl⟩
  · rename_i hnew
    split
    · exact .inl ⟨_, rfl⟩
    · rename_i hinh
      rcases p.occupy_cases above f.decl.position .method [f.name]
        (fun p => { p with methods := p.methods ++ [f] }) with h | ⟨hfree, h⟩
      · exact .inl h
      · exact .inr ⟨by simpa using hnew, hinh, hfree, h⟩

theorem overrideMethod_cases (p : Profile) (f : Method) :
    (∃ problem, p.overrideMethod above f = p.report f.decl.position problem) ∨
      (∃ base, inheritedMethod? above f.name = some base ∧ (∀ o ∈ p.overrides, o.decl.name ≠ f.name) ∧
        f.sameTypes base = true ∧
        p.overrideMethod above f =
          { p with overrides := p.overrides ++ [⟨f.decl, base, pathBelow base p.ascending⟩] }) := by
  rw [overrideMethod]
  split
  · exact .inl ⟨_, rfl⟩
  · rename_i base hinh
    split
    · exact .inl ⟨_, rfl⟩
    · rename_i hnew
      split
      · rename_i hsame
        exact .inr ⟨base, hinh, by simpa using hnew, hsame, rfl⟩
      · exact .inl ⟨_, rfl⟩

/-- A method is reported, or defined where no ancestor has it, or it overrides the nearest inherited one. -/
theorem addMethod_cases (p : Profile) (d : MethodDecl) :
    (∃ problem, p.addMethod above d = p.report d.position problem) ∨
      (∃ f, d.isOverride = false ∧ readMethod p.name d = .ok f ∧ (∀ g ∈ p.methods, g.name ≠ d.name) ∧
        inheritedMethod? above d.name = none ∧ p.conflict? above .method [d.name] = none ∧
        p.addMethod above d =
          { p with members := p.members ++ p.entries .method [d.name], methods := p.methods ++ [f] }) ∨
      (∃ f base, d.isOverride = true ∧ readMethod p.name d = .ok f ∧ inheritedMethod? above d.name = some base ∧
        (∀ o ∈ p.overrides, o.decl.name ≠ d.name) ∧ f.sameTypes base = true ∧
        p.addMethod above d =
          { p with overrides := p.overrides ++ [⟨d, base, pathBelow base p.ascending⟩] }) := by
  rw [addMethod]
  split
  · exact .inl ⟨_, rfl⟩
  · rename_i f hf
    obtain ⟨-, rfl, -⟩ := readMethod_ok hf
    split
    · rename_i hov
      rcases p.overrideMethod_cases above f with h | ⟨base, hinh, hnew, hsame, h⟩
      · exact .inl h
      · exact .inr (.inr ⟨f, base, hov, hf, hinh, hnew, hsame, h⟩)
    · rename_i hov
      rcases p.defineMethod_cases above f with h | ⟨hnew, hinh, hfree, h⟩
      · exact .inl h
      · exact .inr (.inl ⟨f, by simpa using hov, hf, hnew, hinh, hfree, h⟩)

/-! ### What the declarations of a meaning do together -/

/-- What every step keeps, a run of steps keeps. -/
theorem foldl_keeps {β : Type} {P : Profile → Prop} {F : Profile → β → Profile} (hF : ∀ p, P p → ∀ x, P (F p x))
    {xs : List β} {p : Profile} (h : P p) : P (xs.foldl F p) := by
  induction xs generalizing p with
  | nil => exact h
  | cons x xs ih => exact ih (hF p h x)

/-- Names are reserved in order; without a finding all of them are. -/
theorem foldl_reserve_frame (names : List Text) (p : Profile) : ∃ ms fs,
    names.foldl (reserve above) p = { p with members := p.members ++ ms, findings := p.findings ++ fs } ∧
    (fs = [] → ms = p.entries .generated names) := by
  induction names generalizing p with
  | nil => exact ⟨[], [], by simp, fun _ => rfl⟩
  | cons name names ih =>
    rw [List.foldl_cons]
    rcases p.reserve_cases above name with ⟨problem, h⟩ | ⟨-, h⟩
    · rw [h]
      obtain ⟨ms, fs, h', -⟩ := ih (p.report p.decl.position problem)
      exact ⟨ms, .found p.decl.position problem :: fs, by rw [h']; simp [report], fun he => absurd he (by simp)⟩
    · rw [h]
      obtain ⟨ms, fs, h', hall⟩ := ih { p with members := p.members ++ p.entries .generated [name] }
      refine ⟨p.entries .generated [name] ++ ms, fs, by rw [h']; simp, ?_⟩
      exact fun he => by rw [hall he]; rfl

/-- Fields are added in order; without a finding all of them are. -/
theorem foldl_addField_frame (ds : List FieldDecl) (p : Profile) : ∃ ms fl fs,
    ds.foldl (addField above) p =
      { p with members := p.members ++ ms, fields := p.fields ++ fl, findings := p.findings ++ fs } ∧
    fl.length ≤ ds.length ∧ (fs = [] → fl = ds.map slotOf) := by
  induction ds generalizing p with
  | nil => exact ⟨[], [], [], by simp, by simp, fun _ => rfl⟩
  | cons d ds ih =>
    rw [List.foldl_cons]
    rcases p.addField_cases above d with ⟨problem, h⟩ | ⟨-, -, h⟩
    · rw [h]
      obtain ⟨ms, fl, fs, h', hle, -⟩ := ih (p.report d.position problem)
      refine ⟨ms, fl, .found d.position problem :: fs, by rw [h']; simp [report], ?_, fun he => absurd he (by simp)⟩
      exact Nat.le_succ_of_le hle
    · rw [h]
      obtain ⟨ms, fl, fs, h', hle, hall⟩ := ih { p with
        members := p.members ++ p.entries .accessor [d.name, setterName d.name]
        fields := p.fields ++ [slotOf d] }
      refine ⟨p.entries .accessor [d.name, setterName d.name] ++ ms, slotOf d :: fl, fs, by rw [h']; simp,
        Nat.succ_le_succ hle, ?_⟩
      exact fun he => by rw [hall he, List.map_cons]

/-- Methods and overrides are added in order; without a finding all of them are. -/
theorem foldl_addMethod_frame (ds : List MethodDecl) (p : Profile) : ∃ ms me ov fs,
    ds.foldl (addMethod above) p =
      { p with members := p.members ++ ms, methods := p.methods ++ me, overrides := p.overrides ++ ov,
               findings := p.findings ++ fs } ∧
    me.length ≤ ds.length ∧
    (fs = [] → me.map (·.decl) = ds.filter (!·.isOverride) ∧ ov.map (·.decl) = ds.filter (·.isOverride)) := by
  induction ds generalizing p with
  | nil => exact ⟨[], [], [], [], by simp, by simp, fun _ => ⟨rfl, rfl⟩⟩
  | cons d ds ih =>
    rw [List.foldl_cons]
    rcases p.addMethod_cases above d with ⟨problem, h⟩ | ⟨f, hov, hf, -, -, -, h⟩ | ⟨f, base, hov, -, -, -, -, h⟩
    · rw [h]
      obtain ⟨ms, me, ov, fs, h', hle, -⟩ := ih (p.report d.position problem)
      refine ⟨ms, me, ov, .found d.position problem :: fs, by rw [h']; simp [report], ?_, fun he => absurd he (by simp)⟩
      exact Nat.le_succ_of_le hle
    · rw [h]
      obtain ⟨ms, me, ov, fs, h', hle, hall⟩ := ih { p with
        members := p.members ++ p.entries .method [d.name], methods := p.methods ++ [f] }
      refine ⟨p.entries .method [d.name] ++ ms, f :: me, ov, fs, by rw [h']; simp, Nat.succ_le_succ hle, fun he => ?_⟩
      obtain ⟨h₁, h₂⟩ := hall he
      simp [hov, h₁, h₂, (readMethod_ok hf).2.1]
    · rw [h]
      obtain ⟨ms, me, ov, fs, h', hle, hall⟩ := ih { p with
        overrides := p.overrides ++ [⟨d, base, pathBelow base p.ascending⟩] }
      refine ⟨ms, me, ⟨d, base, pathBelow base p.ascending⟩ :: ov, fs, by rw [h']; simp, Nat.le_succ_of_le hle,
        fun he => ?_⟩
      obtain ⟨h₁, h₂⟩ := hall he
      simp [hov, h₁, h₂]

/-- A profile keeps what it was made for; without a finding it has all that is declared. -/
theorem ofDecl_frame (d : MeaningDecl) (ascending submeanings : List Text) : ∃ ctor ms fl me ov fs,
    ofDecl above d ascending submeanings =
      { decl := d, ascending, submeanings, ctor, members := ms, fields := fl, methods := me, overrides := ov,
        findings := fs } ∧
    ctor.decl = constructorDecl d ∧ fl.length ≤ d.fields.length ∧ me.length ≤ d.methods.length ∧
    (fs = [] → fl = d.fields.map slotOf ∧ me.map (·.decl) = d.methods.filter (!·.isOverride) ∧
      ov.map (·.decl) = d.methods.filter (·.isOverride)) := by
  simp only [ofDecl]
  obtain ⟨ms₁, fs₁, h₁, -⟩ := foldl_reserve_frame above _ _
  rw [h₁]
  obtain ⟨ms₂, fl, fs₂, h₂, hfl, hfields⟩ := foldl_addField_frame above d.fields _
  rw [h₂]
  obtain ⟨ctor, fs₃, hctor, h₃⟩ := setConstructor_frame above _
  rw [h₃]
  obtain ⟨ms₄, me, ov, fs₄, h₄, hme, hmethods⟩ := foldl_addMethod_frame above d.methods _
  rw [h₄]
  refine ⟨ctor, _, fl, me, ov, _, rfl, hctor, hfl, hme, fun he => ?_⟩
  simp only [List.append_eq_nil_iff] at he
  exact ⟨hfields he.1.1.2, hmethods he.2⟩

@[simp] theorem ofDecl_decl (d : MeaningDecl) (asc subs : List Text) : (ofDecl above d asc subs).decl = d := by
  obtain ⟨_, _, _, _, _, _, h, -⟩ := ofDecl_frame above d asc subs
  rw [h]

@[simp] theorem ofDecl_name (d : MeaningDecl) (asc subs : List Text) : (ofDecl above d asc subs).name = d.name := by
  rw [name, ofDecl_decl]

@[simp] theorem ofDecl_ascending (d : MeaningDecl) (asc subs : List Text) :
    (ofDecl above d asc subs).ascending = asc := by
  obtain ⟨_, _, _, _, _, _, h, -⟩ := ofDecl_frame above d asc subs
  rw [h]

@[simp] theorem ofDecl_submeanings (d : MeaningDecl) (asc subs : List Text) :
    (ofDecl above d asc subs).submeanings = subs := by
  obtain ⟨_, _, _, _, _, _, h, -⟩ := ofDecl_frame above d asc subs
  rw [h]

@[simp] theorem ofDecl_ctor_decl (d : MeaningDecl) (asc subs : List Text) :
    (ofDecl above d asc subs).ctor.decl = constructorDecl d := by
  obtain ⟨_, _, _, _, _, _, h, hctor, -⟩ := ofDecl_frame above d asc subs
  rw [h]
  exact hctor

/-- Without findings all declared fields, methods and overrides are there, in the order of declaration. -/
theorem ofDecl_clean {above : List Profile} {d : MeaningDecl} {asc subs : List Text}
    (h : (ofDecl above d asc subs).findings = []) :
    (ofDecl above d asc subs).fields = d.fields.map slotOf ∧
      (ofDecl above d asc subs).methods.map (·.decl) = d.methods.filter (!·.isOverride) ∧
      (ofDecl above d asc subs).overrides.map (·.decl) = d.methods.filter (·.isOverride) := by
  obtain ⟨_, _, _, _, _, _, he, -, -, -, hall⟩ := ofDecl_frame above d asc subs
  rw [he] at h ⊢
  exact hall h

/-- Without findings the constructor has the parameters that are declared. -/
theorem ofDecl_ctor_clean {above : List Profile} {d : MeaningDecl} {asc subs : List Text}
    (h : (ofDecl above d asc subs).findings = []) :
    Signature.parse (constructorDecl d).params = .ok (ofDecl above d asc subs).ctor.params ∧
      parseTypeParams (constructorDecl d).typeParams = .ok (ofDecl above d asc subs).ctor.typeParams := by
  simp only [ofDecl] at h ⊢
  obtain ⟨ms₁, fs₁, h₁, -⟩ := foldl_reserve_frame above _ _
  rw [h₁] at h ⊢
  obtain ⟨ms₂, fl, fs₂, h₂, -, -⟩ := foldl_addField_frame above d.fields _
  rw [h₂] at h ⊢
  obtain ⟨ms₄, me, ov, fs₄, h₄, -, -⟩ := foldl_addMethod_frame above d.methods _
  rw [h₄] at h ⊢
  exact setConstructor_clean above (List.append_eq_nil_iff.1 h).1

/-- Parameters of a constructor are taken only if all have names. -/
theorem setConstructor_named {p : Profile} (h : p.ctor.params.unnamed = false) :
    (p.setConstructor above).ctor.params.unnamed = false := by
  have hparams : ∀ q : Profile, q.ctor.params.unnamed = false → q.setParams.ctor.params.unnamed = false := by
    intro q hq
    rw [setParams]
    split
    · exact hq
    · split
      · exact hq
      · rename_i hnamed
        exact Bool.eq_false_iff.2 hnamed
  have htypeParams : ∀ q : Profile, q.setTypeParams.ctor.params = q.ctor.params := by
    intro q
    rw [setTypeParams]
    split <;> rfl
  rw [setConstructor, checkSuper_ctor, htypeParams]
  refine hparams _ ?_
  exact List.foldlRecOn (motive := fun q : Profile => q.ctor.params.unnamed = false) _ _ h fun _ hq _ _ => hq

theorem ofDecl_ctor_named (d : MeaningDecl) (asc subs : List Text) :
    (ofDecl above d asc subs).ctor.params.unnamed = false := by
  simp only [ofDecl]
  obtain ⟨ms₁, fs₁, h₁, -⟩ := foldl_reserve_frame above _ _
  rw [h₁]
  obtain ⟨ms₂, fl, fs₂, h₂, -⟩ := foldl_addField_frame above d.fields _
  rw [h₂]
  obtain ⟨ms₄, me, ov, fs₄, h₄, -⟩ := foldl_addMethod_frame above d.methods _
  rw [h₄]
  exact setConstructor_named above rfl

/-- The signatures of all overrides can be read and have the types of their bases. -/
def OverridesRead (p : Profile) : Prop :=
  ∀ o ∈ p.overrides, ∃ f, readMethod p.name o.decl = .ok f ∧ f.sameTypes o.base = true

variable {above} in
theorem OverridesRead.addMethod {p : Profile} (h : p.OverridesRead) (d : MethodDecl) :
    (p.addMethod above d).OverridesRead := by
  rcases p.addMethod_cases above d with ⟨_, he⟩ | ⟨_, -, -, -, -, -, he⟩ | ⟨f, base, -, hf, -, -, hsame, he⟩
  · exact he ▸ h
  · exact he ▸ h
  · rw [he]
    intro o ho
    rcases List.mem_append.1 ho with ho | ho
    · exact h o ho
    · obtain rfl := List.mem_singleton.1 ho
      exact ⟨f, hf, hsame⟩

theorem ofDecl_overridesRead (d : MeaningDecl) (asc subs : List Text) : (ofDecl above d asc subs).OverridesRead := by
  simp only [ofDecl]
  obtain ⟨ms₁, fs₁, h₁, -⟩ := foldl_reserve_frame above _ _
  rw [h₁]
  obtain ⟨ms₂, fl, fs₂, h₂, -⟩ := foldl_addField_frame above d.fields _
  rw [h₂]
  obtain ⟨ctor, fs₃, -, h₃⟩ := setConstructor_frame above _
  rw [h₃]
  refine foldl_keeps (P := OverridesRead) (fun _ h d => h.addMethod d) fun o ho => ?_
  cases ho

/-- A profile has no more fields and methods than are declared. -/
theorem length_ofDecl_le (d : MeaningDecl) (asc subs : List Text) :
    (ofDecl above d asc subs).fields.length ≤ d.fields.length ∧
      (ofDecl above d asc subs).methods.length ≤ d.methods.length := by
  obtain ⟨_, _, _, _, _, _, he, -, hfields, hmethods, -⟩ := ofDecl_frame above d asc subs
  rw [he]
  exact ⟨hfields, hmethods⟩

/-! ### Reserved names come first -/

/-- The profile of a declaration before anything is taken. -/
def start (d : MeaningDecl) (ascending submeanings : List Text) : Profile :=
  { decl := d, ascending, submeanings, ctor := { decl := constructorDecl d } }

/-- The profile of a declaration once the reserved names are taken. -/
def reserved [Language] (above : List Profile) (d : MeaningDecl) (asc subs : List Text) : Profile :=
  (start d asc subs).reservedNames.foldl (reserve above) (start d asc subs)

theorem ofDecl_eq (above : List Profile) (d : MeaningDecl) (asc subs : List Text) : ofDecl above d asc subs =
    d.methods.foldl (addMethod above)
      ((d.fields.foldl (addField above) (reserved above d asc subs)).setConstructor above) :=
  rfl

theorem reserved_clean {above : List Profile} {d : MeaningDecl} {asc subs : List Text}
    (h : (ofDecl above d asc subs).findings = []) : (reserved above d asc subs).findings = [] := by
  rw [ofDecl_eq] at h
  obtain ⟨ms₂, fl, fs₂, h₂, -⟩ := foldl_addField_frame above d.fields (reserved above d asc subs)
  rw [h₂] at h
  obtain ⟨ctor, fs₃, -, h₃⟩ := setConstructor_frame above _
  rw [h₃] at h
  obtain ⟨ms₄, me, ov, fs₄, h₄, -⟩ := foldl_addMethod_frame above d.methods _
  rw [h₄] at h
  simp only [List.append_eq_nil_iff] at h
  exact h.1.1.1

/-! ### What holds of every profile -/

/-- Fields, methods and overrides have distinct names; methods are new on the way from the root; an override has the
nearest inherited method as its base, and the way down from there as its path. -/
structure Consistent (p : Profile) : Prop where
  fields_nodup : (p.fields.map (·.name)).Nodup
  methods_nodup : (p.methods.map (·.name)).Nodup
  methods_read : ∀ f ∈ p.methods, readMethod p.name f.decl = .ok f
  methods_new : ∀ f ∈ p.methods, inheritedMethod? above f.name = none
  overrides_nodup : (p.overrides.map (·.decl.name)).Nodup
  overrides_base : ∀ o ∈ p.overrides, inheritedMethod? above o.decl.name = some o.base
  overrides_path : ∀ o ∈ p.overrides, o.path = pathBelow o.base p.ascending

variable {above}

namespace Consistent

theorem methods_owner {p : Profile} (h : Consistent above p) {f : Method} (hf : f ∈ p.methods) : f.owner = p.name :=
  (readMethod_ok (h.methods_read f hf)).1

/-- Findings and members do not matter. -/
theorem of_same {p q : Profile} (h : Consistent above p) (hdecl : q.decl = p.decl) (hasc : q.ascending = p.ascending)
    (hfields : q.fields = p.fields) (hmethods : q.methods = p.methods) (hoverrides : q.overrides = p.overrides) :
    Consistent above q := by
  have hname : q.name = p.name := by rw [name, name, hdecl]
  constructor
  · rw [hfields]; exact h.fields_nodup
  · rw [hmethods]; exact h.methods_nodup
  · rw [hmethods, hname]; exact h.methods_read
  · rw [hmethods]; exact h.methods_new
  · rw [hoverrides]; exact h.overrides_nodup
  · rw [hoverrides]; exact h.overrides_base
  · rw [hoverrides, hasc]; exact h.overrides_path

theorem report {p : Profile} (h : Consistent above p) (position : Position) (problem : AnalysisProblem) :
    Consistent above (p.report position problem) :=
  h.of_same rfl rfl rfl rfl rfl

theorem reserve {p : Profile} (h : Consistent above p) (name : Text) : Consistent above (p.reserve above name) := by
  rcases p.reserve_cases above name with ⟨problem, he⟩ | ⟨-, he⟩
  · exact he ▸ h.report _ _
  · exact he ▸ h.of_same rfl rfl rfl rfl rfl

theorem setConstructor {p : Profile} (h : Consistent above p) : Consistent above (p.setConstructor above) := by
  obtain ⟨ctor, fs, -, he⟩ := setConstructor_frame above p
  exact he ▸ h.of_same rfl rfl rfl rfl rfl

/-- A list of names stays without repetitions when a new name is added. -/
private theorem nodup_concat {β : Type} {f : β → Text} {l : List β} {x : β} (h : (l.map f).Nodup)
    (hx : ∀ y ∈ l, f y ≠ f x) : ((l ++ [x]).map f).Nodup := by
  rw [List.map_append, List.nodup_append]
  refine ⟨h, by simp, ?_⟩
  intro a ha b hb
  obtain ⟨y, hy, rfl⟩ := List.mem_map.1 ha
  obtain rfl : b = f x := by simpa using hb
  exact hx y hy

theorem addField {p : Profile} (h : Consistent above p) (d : FieldDecl) : Consistent above (p.addField above d) := by
  rcases p.addField_cases above d with ⟨problem, he⟩ | ⟨hnew, -, he⟩
  · exact he ▸ h.report _ _
  · rw [he]
    exact { h with fields_nodup := nodup_concat h.fields_nodup hnew }

theorem addMethod {p : Profile} (h : Consistent above p) (d : MethodDecl) : Consistent above (p.addMethod above d) := by
  rcases p.addMethod_cases above d with
    ⟨problem, he⟩ | ⟨f, -, hf, hnew, hinh, -, he⟩ | ⟨f, base, -, -, hinh, hnew, -, he⟩
  · exact he ▸ h.report _ _
  · obtain ⟨-, rfl, -⟩ := readMethod_ok hf
    rw [he]
    refine { h with methods_nodup := nodup_concat h.methods_nodup hnew, methods_read := ?_, methods_new := ?_ }
    · intro g hg
      rcases List.mem_append.1 hg with hg | hg
      · exact h.methods_read g hg
      · exact List.mem_singleton.1 hg ▸ hf
    · intro g hg
      rcases List.mem_append.1 hg with hg | hg
      · exact h.methods_new g hg
      · exact List.mem_singleton.1 hg ▸ hinh
  · rw [he]
    refine { h with overrides_nodup := nodup_concat h.overrides_nodup hnew, overrides_base := ?_, overrides_path := ?_ }
    · intro o ho
      rcases List.mem_append.1 ho with ho | ho
      · exact h.overrides_base o ho
      · exact List.mem_singleton.1 ho ▸ hinh
    · intro o ho
      rcases List.mem_append.1 ho with ho | ho
      · exact h.overrides_path o ho
      · obtain rfl := List.mem_singleton.1 ho
        rfl

end Consistent

theorem ofDecl_consistent (d : MeaningDecl) (asc subs : List Text) :
    Consistent above (ofDecl above d asc subs) := by
  simp only [ofDecl]
  apply foldl_keeps (P := Consistent above) fun _ h d => Consistent.addMethod h d
  apply Consistent.setConstructor
  apply foldl_keeps (P := Consistent above) fun _ h d => Consistent.addField h d
  apply foldl_keeps (P := Consistent above) fun _ h name => Consistent.reserve h name
  constructor <;> simp

end MeaningForest.Profile

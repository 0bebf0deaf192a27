import MeaningForest.Proofs.Dispatch
import MeaningForest.Proofs.Entries
import MeaningForest.Proofs.Reordering

/-!
# No declaration is lost

The declarations of a file are taken one after the other, and each is settled: it is kept, or exactly one finding about
it is reported (`Settled`).  This holds of the meanings of a file (`Forest.exists_settled_meanings`) and of the fields,
constructors and methods of every registered meaning (`Profile.exists_breakdown`), whose findings are accounted for one
by one.

What is kept can be found again.  An override is code in the tree of the method that it overrides, and these trees hold
nothing else (`Analysis.Accounted`); the symbols of the meanings list what their profiles have (`Analysis.Registered`).
-/

namespace MeaningForest

variable {lang : Language}

/-! ### Settling declarations -/

section Settled

variable {δ κ : Type} (Keeps : List κ → δ → κ → Prop) (Reports : List κ → δ → Finding → Prop)

/-- Declarations are settled one after the other: each is kept, or one finding about it is reported.  What happens to a
declaration may depend on what was kept before it. -/
inductive Settled : List κ → List δ → List κ → List Finding → Prop
  | nil (taken : List κ) : Settled taken [] [] []
  | kept {taken : List κ} {d : δ} {k : κ} {ds : List δ} {ks : List κ} {fs : List Finding} (h : Keeps taken d k)
      (rest : Settled (taken ++ [k]) ds ks fs) : Settled taken (d :: ds) (k :: ks) fs
  | reported {taken : List κ} {d : δ} {f : Finding} {ds : List δ} {ks : List κ} {fs : List Finding}
      (h : Reports taken d f) (rest : Settled taken ds ks fs) : Settled taken (d :: ds) ks (f :: fs)

variable {Keeps Reports}

/-- If every step keeps or reports its declaration, a run settles all of them.  `V` tells from a state what was kept,
`R` what was reported. -/
theorem exists_settled {σ : Type} {step : σ → δ → σ} {V : σ → List κ → Prop} {R : σ → List Finding}
    (hstep : ∀ s taken d, V s taken →
      (∃ k, Keeps taken d k ∧ V (step s d) (taken ++ [k]) ∧ R (step s d) = R s) ∨
        ∃ f, Reports taken d f ∧ V (step s d) taken ∧ R (step s d) = R s ++ [f])
    (ds : List δ) {s : σ} {taken : List κ} (h : V s taken) : ∃ ks fs, Settled Keeps Reports taken ds ks fs ∧
      V (ds.foldl step s) (taken ++ ks) ∧ R (ds.foldl step s) = R s ++ fs := by
  induction ds generalizing s taken with
  | nil => exact ⟨[], [], .nil taken, by simpa using h, by simp⟩
  | cons d ds ih =>
    rw [List.foldl_cons]
    rcases hstep s taken d h with ⟨k, hk, hview, hfound⟩ | ⟨f, hf, hview, hfound⟩
    · obtain ⟨ks, fs, hsettled, hview', hfound'⟩ := ih hview
      exact ⟨k :: ks, fs, .kept hk hsettled, by simpa using hview', by rw [hfound', hfound]⟩
    · obtain ⟨ks, fs, hsettled, hview', hfound'⟩ := ih hview
      exact ⟨ks, f :: fs, .reported hf hsettled, hview', by rw [hfound', hfound, List.append_assoc]; rfl⟩

end Settled

/-! ### Meanings -/

namespace Forest

/-- A meaning is registered under its declaration if nothing speaks against it. -/
def Admits (arena : Text) (taken : List MeaningDecl) (d kept : MeaningDecl) : Prop :=
  kept = d ∧ rejection? arena taken d = none

/-- What is reported of a meaning that is not registered. -/
def Rejects [Language] (arena : Text) (taken : List MeaningDecl) (d : MeaningDecl) (f : Finding) : Prop :=
  ∃ problem, rejection? arena taken d = some problem ∧ f = .found d.position problem

/-- The finding is about the parent of a meaning. -/
def ConcernsParent (f : Finding) : Prop :=
  (∃ m parent, f.problem = .unknownParent m parent) ∨ ∃ m cycle, f.problem = .inheritanceCycle m cycle

theorem foldl_breakCycle_concerns (nodes : List ForestNode) {acc : Forest × List Finding}
    (hacc : ∀ f ∈ acc.2, ConcernsParent f) : ∀ f ∈ (nodes.foldl breakCycle acc).2, ConcernsParent f := by
  induction nodes generalizing acc with
  | nil => exact hacc
  | cons n nodes ih =>
    refine ih fun f hf => ?_
    rw [breakCycle] at hf
    split at hf
    · rcases List.mem_append.1 hf with hf | hf
      · exact hacc f hf
      · rw [List.mem_singleton.1 hf]
        exact .inr ⟨_, _, rfl⟩
    · exact hacc f hf

/-- Every meaning that a file declares is registered or reported; all else that is found concerns parents. -/
theorem exists_settled_meanings (arena : Text) (decls : List MeaningDecl) : ∃ rejected lineage,
    (ofDecls arena decls).2 = rejected ++ lineage ∧ (∀ f ∈ lineage, ConcernsParent f) ∧
      Settled (Admits arena) (Rejects arena) [] decls ((ofDecls arena decls).1.nodes.map (·.decl)) rejected := by
  have hstep : ∀ (s : List MeaningDecl × List Finding) taken d, s.1 = taken →
      (∃ k, Admits arena taken d k ∧ (register arena s d).1 = taken ++ [k] ∧ (register arena s d).2 = s.2) ∨
        ∃ f, Rejects arena taken d f ∧ (register arena s d).1 = taken ∧ (register arena s d).2 = s.2 ++ [f] := by
    rintro s taken d rfl
    rw [register]
    cases hr : rejection? arena s.1 d with
    | none => exact .inl ⟨d, ⟨rfl, hr⟩, rfl, rfl⟩
    | some problem => exact .inr ⟨.found d.position problem, ⟨problem, hr, rfl⟩, rfl, rfl⟩
  obtain ⟨kept, rejected, hsettled, hkept, hrejected⟩ := exists_settled hstep decls (s := ([], [])) rfl
  rw [List.nil_append] at hkept hrejected
  let parents := (registered arena decls).filterMap (unknownParent? (registered arena decls))
  let cycles := ((attached arena decls).nodes.foldl breakCycle (attached arena decls, [])).2
  have hfindings : (ofDecls arena decls).2 = (decls.foldl (register arena) ([], [])).2 ++ parents ++ cycles := rfl
  refine ⟨rejected, parents ++ cycles, ?_, ?_, ?_⟩
  · rw [hfindings, hrejected, List.append_assoc]
  · intro f hf
    rcases List.mem_append.1 hf with hf | hf
    · obtain ⟨d, -, hd⟩ := List.mem_filterMap.1 hf
      rw [unknownParent?] at hd
      split at hd
      · exact .inl ⟨_, _, congrArg Located.problem (Option.some.inj hd).symm⟩
      · cases hd
    · exact foldl_breakCycle_concerns _ (by simp) f hf
  · rw [decls_ofDecls, registered, hkept]
    exact hsettled

end Forest

namespace AnalysisProblem

/-- A problem with a method that a meaning declares. -/
def ConcernsMethod (m : Text) (d : MethodDecl) : AnalysisProblem → Prop
  | methodTypeParams m' n | unnamedParams m' n | duplicateMethod m' n | overrideMissing m' n => m' = m ∧ n = d.name
  | mustOverride m' n _ | memberConflict m' n _ | overrideSignature m' n _ _ => m' = m ∧ n = d.name
  | invalidParams m' what _ => m' = m ∧ d.name <+: what
  | _ => False

/-- A problem with the constructor of a meaning. -/
def ConcernsConstructor (m : Text) : AnalysisProblem → Prop
  | superWithoutParent m' | missingSuper m' _ => m' = m
  | unnamedParams m' what | invalidParams m' what _ => m' = m ∧ Text.ofString "constructor" <+: what
  | _ => False

end AnalysisProblem

namespace Profile

variable (above : List Profile)

theorem conflict?_eq_some {above : List Profile} {p : Profile} {kind : MemberKind} {names : List Text}
    {member owner : Text} (h : p.conflict? above kind names = some (member, owner)) : member ∈ names ∧
      ∃ e ∈ above.flatMap (·.members) ++ p.members, e.blocks p.name member kind = true ∧ owner = e.owner := by
  rw [conflict?] at h
  obtain ⟨name, hname, he⟩ := List.exists_of_findSome?_eq_some h
  obtain ⟨e, hfind, hpair⟩ := Option.map_eq_some_iff.1 he
  obtain ⟨rfl, rfl⟩ := Prod.mk.inj hpair
  have hblocks : e.blocks p.name name kind = true := by simpa using List.find?_some hfind
  exact ⟨hname, e, List.mem_of_find?_eq_some hfind, hblocks, rfl⟩

/-! ### Fields -/

/-- The members that fields add to the handle type of a meaning. -/
def accessorsOf (m : Text) (taken : List FieldSlot) : List Member :=
  taken.flatMap fun k => [⟨m, k.name, .accessor⟩, ⟨m, setterName k.name, .accessor⟩]

/-- A field is kept with its initial value if its name is new and its accessors are free. -/
def AdmitsField (m : Text) (occupied : List Member) (taken : List FieldSlot) (d : FieldDecl) (kept : FieldSlot) :
    Prop :=
  kept = slotOf d ∧ d.name ∉ taken.map (·.name) ∧
    ∀ member ∈ [d.name, setterName d.name], ∀ e ∈ occupied ++ accessorsOf m taken, e.blocks m member .accessor = false

/-- What is reported of a field that is not kept: its name is that of a field, or one of its accessors is taken. -/
def RejectsField (m : Text) (occupied : List Member) (taken : List FieldSlot) (d : FieldDecl) (f : Finding) : Prop :=
  f.position = d.position ∧ ((d.name ∈ taken.map (·.name) ∧ f.problem = .redefining d.name) ∨
    (d.name ∉ taken.map (·.name) ∧
      ∃ member ∈ [d.name, setterName d.name], ∃ e ∈ occupied ++ accessorsOf m taken,
        e.blocks m member .accessor = true ∧ f.problem = .memberConflict m member e.owner))

/-- `p` has the given fields and their accessors, and differs from `q` otherwise in findings only. -/
def HasFields (q p : Profile) (taken : List FieldSlot) : Prop :=
  ∃ fs, p = { q with members := q.members ++ accessorsOf q.name taken, fields := taken, findings := fs }

theorem HasFields.addField {q p : Profile} {taken : List FieldSlot} (h : HasFields q p taken) (d : FieldDecl) :
    (∃ k, AdmitsField q.name (above.flatMap (·.members) ++ q.members) taken d k ∧
      HasFields q (p.addField above d) (taken ++ [k]) ∧ (p.addField above d).findings = p.findings) ∨
    ∃ f, RejectsField q.name (above.flatMap (·.members) ++ q.members) taken d f ∧
      HasFields q (p.addField above d) taken ∧ (p.addField above d).findings = p.findings ++ [f] := by
  obtain ⟨fs, rfl⟩ := h
  rw [Profile.addField]
  split
  · rename_i htaken
    exact .inr ⟨_, ⟨rfl, .inl ⟨by simpa using htaken, rfl⟩⟩, ⟨_, rfl⟩, rfl⟩
  · rename_i hnew
    have hnew : d.name ∉ taken.map (·.name) := by simpa using hnew
    rw [occupy]
    split
    · rename_i member owner hconflict
      obtain ⟨hmember, e, he, hblocks, rfl⟩ := conflict?_eq_some hconflict
      rw [← List.append_assoc] at he
      exact .inr ⟨_, ⟨rfl, .inr ⟨hnew, member, hmember, e, he, hblocks, rfl⟩⟩, ⟨_, rfl⟩, rfl⟩
    · rename_i hfree
      rw [conflict?_eq_none, ← List.append_assoc] at hfree
      refine .inl ⟨slotOf d, ⟨rfl, hnew, hfree⟩, ⟨fs, ?_⟩, rfl⟩
      simp [accessorsOf, slotOf, Profile.name]

theorem foldl_addField_settles (q : Profile) (hq : q.fields = []) (ds : List FieldDecl) : ∃ kept fs,
    Settled (AdmitsField q.name (above.flatMap (·.members) ++ q.members))
      (RejectsField q.name (above.flatMap (·.members) ++ q.members)) [] ds kept fs ∧
    ds.foldl (addField above) q =
      { q with members := q.members ++ accessorsOf q.name kept, fields := kept, findings := q.findings ++ fs } := by
  have hstart : HasFields q q [] := by
    refine ⟨q.findings, ?_⟩
    cases q
    simp_all [accessorsOf]
  obtain ⟨kept, fs, hsettled, ⟨fs', h⟩, hfound⟩ :=
    exists_settled (V := HasFields q) (R := findings) (fun _ _ d h => h.addField above d) ds hstart
  rw [h] at hfound
  exact ⟨kept, fs, hsettled, by rw [h, ← hfound, List.nil_append]⟩

/-! ### Constructors -/

/-- `q` differs from `p` in how the same constructor was read and in findings about it. -/
def ReadsConstructor (p q : Profile) : Prop :=
  ∃ ctor fs, ctor.decl = p.ctor.decl ∧ q = { p with ctor := ctor, findings := p.findings ++ fs } ∧
    ∀ f ∈ fs, f.position = p.ctor.decl.position ∧ f.problem.ConcernsConstructor p.name

theorem ReadsConstructor.refl (p : Profile) : ReadsConstructor p p := ⟨p.ctor, [], rfl, by simp, by simp⟩

theorem ReadsConstructor.trans {p q r : Profile} (h₁ : ReadsConstructor p q) (h₂ : ReadsConstructor q r) :
    ReadsConstructor p r := by
  obtain ⟨c₁, f₁, hc₁, rfl, hf₁⟩ := h₁
  obtain ⟨c₂, f₂, hc₂, rfl, hf₂⟩ := h₂
  refine ⟨c₂, f₁ ++ f₂, hc₂.trans hc₁, by simp, fun f hf => ?_⟩
  rcases List.mem_append.1 hf with hf | hf
  · exact hf₁ f hf
  · exact hc₁ ▸ hf₂ f hf

theorem readsConstructor_report (p : Profile) {problem : AnalysisProblem} (h : problem.ConcernsConstructor p.name) :
    ReadsConstructor p (p.report p.ctor.decl.position problem) :=
  ⟨p.ctor, [.found p.ctor.decl.position problem], rfl, rfl, by simpa using h⟩

theorem readsConstructor_ctor (p : Profile) {ctor : Constructor} (h : ctor.decl = p.ctor.decl) :
    ReadsConstructor p { p with ctor := ctor } :=
  ⟨ctor, [], h, by simp, by simp⟩

theorem setParams_reads (p : Profile) : ReadsConstructor p p.setParams := by
  have hopen : Text.ofString "constructor(" = Text.ofString "constructor" ++ Text.ofString "(" := rfl
  rw [setParams, hopen, List.append_assoc, List.append_assoc]
  split
  · exact readsConstructor_report p ⟨rfl, List.prefix_append _ _⟩
  · split
    · exact readsConstructor_report p ⟨rfl, List.prefix_refl _⟩
    · exact readsConstructor_ctor p rfl

theorem setTypeParams_reads (p : Profile) : ReadsConstructor p p.setTypeParams := by
  have hopen : Text.ofString "constructor[" = Text.ofString "constructor" ++ Text.ofString "[" := rfl
  rw [setTypeParams, hopen, List.append_assoc, List.append_assoc]
  split
  · exact readsConstructor_report p ⟨rfl, List.prefix_append _ _⟩
  · exact readsConstructor_ctor p rfl

theorem checkSuper_reads (p : Profile) : ReadsConstructor p (p.checkSuper above) := by
  rw [checkSuper]
  split
  · exact readsConstructor_report p rfl
  · split
    · exact .refl p
    · exact readsConstructor_report p rfl
  · exact .refl p

/-- What is reported of the constructors after the first. -/
def furtherConstructors [Language] (d : MeaningDecl) : List Finding :=
  d.constructors.tail.map fun c => .found c.position (.duplicateConstructor d.name)

theorem setConstructor_settles (p : Profile) : ∃ ctor fs, ctor.decl = p.ctor.decl ∧
    p.setConstructor above =
      { p with ctor := ctor, findings := p.findings ++ furtherConstructors p.decl ++ fs } ∧
    ∀ f ∈ fs, f.position = p.ctor.decl.position ∧ f.problem.ConcernsConstructor p.name := by
  have hextra : ∀ (ds : List ConstructorDecl) (p : Profile),
      ds.foldl (fun p d => p.report d.position (.duplicateConstructor p.name)) p =
        { p with findings := p.findings ++ ds.map fun c => .found c.position (.duplicateConstructor p.decl.name) } := by
    intro ds
    induction ds with
    | nil => simp
    | cons d ds ih => exact fun p => by rw [List.foldl_cons, ih]; simp [report, name]
  obtain ⟨ctor, fs, hctor, he, hfs⟩ :=
    ((setParams_reads { p with findings := p.findings ++ furtherConstructors p.decl }).trans
      (setTypeParams_reads _)).trans (checkSuper_reads above _)
  refine ⟨ctor, fs, hctor, ?_, hfs⟩
  rw [setConstructor, hextra]
  exact he

/-! ### Methods -/

/-- What becomes of a declared method that is kept. -/
inductive MethodEntry where
  | defined (f : Method)
  | overriding (o : Override)

namespace MethodEntry

def method? : MethodEntry → Option Method
  | defined f => some f
  | overriding _ => none

def override? : MethodEntry → Option Override
  | defined _ => none
  | overriding o => some o

end MethodEntry

/-- The members that methods add to the handle type of a meaning. -/
def methodMembers (m : Text) (taken : List Method) : List Member := taken.map fun f => ⟨m, f.name, .method⟩

/-- A method is kept as a definition if neither the meaning nor an ancestor has one of its name, and as an override if
an ancestor has one of the same types that the meaning does not override yet. -/
inductive AdmitsMethod (m : Text) (ascending : List Text) (taken : List MethodEntry) (d : MethodDecl) :
    MethodEntry → Prop
  | defined {f : Method} (hkind : d.isOverride = false) (hread : readMethod m d = .ok f)
      (hnew : ∀ g ∈ taken.filterMap MethodEntry.method?, g.name ≠ d.name)
      (hinherited : inheritedMethod? above d.name = none) :
      AdmitsMethod m ascending taken d (.defined f)
  | overriding {f base : Method} (hkind : d.isOverride = true) (hread : readMethod m d = .ok f)
      (hinherited : inheritedMethod? above d.name = some base)
      (hnew : ∀ o ∈ taken.filterMap MethodEntry.override?, o.decl.name ≠ d.name) (htypes : f.sameTypes base = true) :
      AdmitsMethod m ascending taken d (.overriding ⟨d, base, pathBelow base ascending⟩)

/-- What is reported of a method that is not kept. -/
def RejectsMethod (m : Text) (_taken : List MethodEntry) (d : MethodDecl) (f : Finding) : Prop :=
  f.position = d.position ∧ f.problem.ConcernsMethod m d

theorem report_injective {p : Profile} {position : Position} {problem problem' : AnalysisProblem}
    (h : p.report position problem = p.report position problem') : problem = problem' := by
  simpa [report] using h

theorem readMethod_concerns {m : Text} {d : MethodDecl} {problem : AnalysisProblem}
    (h : readMethod m d = .error problem) : problem.ConcernsMethod m d := by
  simp only [readMethod, bind, Except.bind, pure, Except.pure, throw, throwThe, MonadExceptOf.throw] at h
  split at h
  · cases h
    exact ⟨rfl, rfl⟩
  · cases hp : Signature.parse d.params with
    | error e =>
      simp only [hp, Except.mapError, Except.error.injEq] at h
      subst h
      exact ⟨rfl, by simp [List.append_assoc]⟩
    | ok params =>
      simp only [hp, Except.mapError] at h
      split at h
      · cases h
        exact ⟨rfl, rfl⟩
      · cases hr : parseResults d.results with
        | error e =>
          simp only [hr, Except.error.injEq] at h
          subst h
          exact ⟨rfl, by simp [List.append_assoc]⟩
        | ok results => simp [hr] at h

theorem defineMethod_concerns {p : Profile} {f : Method} {problem : AnalysisProblem}
    (h : p.defineMethod above f = p.report f.decl.position problem) : problem.ConcernsMethod p.name f.decl := by
  rw [defineMethod] at h
  split at h
  · exact report_injective h ▸ ⟨rfl, rfl⟩
  · split at h
    · exact report_injective h ▸ ⟨rfl, rfl⟩
    · rw [occupy] at h
      split at h
      · rename_i member owner hconflict
        rw [← report_injective h]
        exact ⟨rfl, List.mem_singleton.1 (conflict?_eq_some hconflict).1⟩
      · simpa [report] using congrArg methods h

theorem overrideMethod_concerns {p : Profile} {f : Method} {problem : AnalysisProblem}
    (h : p.overrideMethod above f = p.report f.decl.position problem) : problem.ConcernsMethod p.name f.decl := by
  rw [overrideMethod] at h
  split at h
  · exact report_injective h ▸ ⟨rfl, rfl⟩
  · split at h
    · exact report_injective h ▸ ⟨rfl, rfl⟩
    · split at h
      · simpa [report] using congrArg overrides h
      · exact report_injective h ▸ ⟨rfl, rfl⟩

theorem addMethod_concerns {p : Profile} {d : MethodDecl} {problem : AnalysisProblem}
    (h : p.addMethod above d = p.report d.position problem) : problem.ConcernsMethod p.name d := by
  rw [addMethod] at h
  split at h
  · rename_i e he
    exact report_injective h ▸ readMethod_concerns he
  · rename_i f hf
    obtain ⟨-, rfl, -⟩ := readMethod_ok hf
    split at h
    · exact overrideMethod_concerns above h
    · exact defineMethod_concerns above h

/-- `p` has the given methods and overrides and differs from `q` otherwise in findings only. -/
def HasMethods (q p : Profile) (entries : List MethodEntry) : Prop :=
  ∃ fs, p = { q with
    members := q.members ++ methodMembers q.name (entries.filterMap MethodEntry.method?)
    methods := entries.filterMap MethodEntry.method?
    overrides := entries.filterMap MethodEntry.override?
    findings := fs }

theorem HasMethods.addMethod {q p : Profile} {entries : List MethodEntry} (h : HasMethods q p entries)
    (d : MethodDecl) :
    (∃ k, AdmitsMethod above q.name q.ascending entries d k ∧ HasMethods q (p.addMethod above d) (entries ++ [k]) ∧
      (p.addMethod above d).findings = p.findings) ∨
    ∃ f, RejectsMethod q.name entries d f ∧ HasMethods q (p.addMethod above d) entries ∧
      (p.addMethod above d).findings = p.findings ++ [f] := by
  obtain ⟨fs, hp⟩ := h
  have hname : p.name = q.name := by rw [hp]; rfl
  have hasc : p.ascending = q.ascending := by rw [hp]
  have hmethods : p.methods = entries.filterMap MethodEntry.method? := by rw [hp]
  have hoverrides : p.overrides = entries.filterMap MethodEntry.override? := by rw [hp]
  -- `addMethod_cases` says that one problem is reported at most, `addMethod_concerns` what it is about
  rcases p.addMethod_cases above d with
    ⟨problem, h⟩ | ⟨f, hkind, hread, hnew, hinherited, -, h⟩ | ⟨f, base, hkind, hread, hinherited, hnew, htypes, h⟩
  · refine .inr ⟨.found d.position problem, ⟨rfl, hname ▸ addMethod_concerns above h⟩,
      ⟨p.findings ++ [.found d.position problem], ?_⟩, by rw [h]; rfl⟩
    rw [h, hp]
    rfl
  · rw [hmethods] at hnew
    rw [hname] at hread
    have hfname : f.name = d.name := congrArg MethodDecl.name (readMethod_ok hread).2.1
    refine .inl ⟨.defined f, .defined hkind hread hnew hinherited, ⟨fs, ?_⟩, by rw [h]⟩
    rw [h, hp, List.filterMap_append, List.filterMap_append]
    simp [MethodEntry.method?, MethodEntry.override?, methodMembers, Profile.entries, hfname, name]
  · rw [hoverrides] at hnew
    rw [hname] at hread
    rw [hasc] at h
    refine .inl ⟨_, .overriding hkind hread hinherited hnew htypes, ⟨fs, ?_⟩, by rw [h]⟩
    rw [h, hp, List.filterMap_append, List.filterMap_append]
    simp [MethodEntry.method?, MethodEntry.override?, methodMembers]

theorem foldl_addMethod_settles (q : Profile) (hmethods : q.methods = []) (hoverrides : q.overrides = [])
    (ds : List MethodDecl) : ∃ entries fs,
      Settled (AdmitsMethod above q.name q.ascending) (RejectsMethod q.name) [] ds entries fs ∧
      ds.foldl (addMethod above) q = { q with
        members := q.members ++ methodMembers q.name (entries.filterMap MethodEntry.method?)
        methods := entries.filterMap MethodEntry.method?
        overrides := entries.filterMap MethodEntry.override?
        findings := q.findings ++ fs } := by
  have hstart : HasMethods q q [] := by
    refine ⟨q.findings, ?_⟩
    cases q
    simp_all [methodMembers]
  obtain ⟨entries, fs, hsettled, ⟨fs', h⟩, hfound⟩ :=
    exists_settled (V := HasMethods q) (R := findings) (fun _ _ d h => h.addMethod above d) ds hstart
  rw [h] at hfound
  exact ⟨entries, fs, hsettled, by rw [h, ← hfound, List.nil_append]⟩

/-! ### The whole profile -/

/-- The findings of a profile one by one: about the names that the meaning itself takes, about its fields, about its
constructors after the first and the first, and about its methods.  Every field and method without one was kept. -/
structure Breakdown [Language] (p : Profile) (generated : List Member) (reserved fields ctor methods : List Finding)
    (entries : List MethodEntry) : Prop where
  findings_eq : p.findings = reserved ++ fields ++ furtherConstructors p.decl ++ ctor ++ methods
  members_eq : p.members = generated ++ accessorsOf p.name p.fields ++ methodMembers p.name p.methods
  own_generated : ∀ e ∈ generated, e.owner = p.name ∧ e.kind = .generated
  about_reserved : ∀ f ∈ reserved,
    f.position = p.decl.position ∧ ∃ member owner, f.problem = .memberConflict p.name member owner
  settled_fields : Settled (AdmitsField p.name (above.flatMap (·.members) ++ generated))
    (RejectsField p.name (above.flatMap (·.members) ++ generated)) [] p.decl.fields p.fields fields
  ctor_eq : p.ctor.decl = constructorDecl p.decl
  about_ctor : ∀ f ∈ ctor, f.position = p.ctor.decl.position ∧ f.problem.ConcernsConstructor p.name
  settled_methods :
    Settled (AdmitsMethod above p.name p.ascending) (RejectsMethod p.name) [] p.decl.methods entries methods
  methods_eq : p.methods = entries.filterMap MethodEntry.method?
  overrides_eq : p.overrides = entries.filterMap MethodEntry.override?

/-- What taking the reserved names leads to. -/
def HasReserved (q p : Profile) : Prop := ∃ ms fs, p = { q with members := ms, findings := fs } ∧
  (∀ e ∈ ms, e.owner = q.name ∧ e.kind = .generated) ∧
  ∀ f ∈ fs, f.position = q.decl.position ∧ ∃ member owner, f.problem = .memberConflict q.name member owner

theorem HasReserved.reserve {q p : Profile} (h : HasReserved q p) (name : Text) :
    HasReserved q (p.reserve above name) := by
  obtain ⟨ms, fs, rfl, hms, hfs⟩ := h
  rw [Profile.reserve, occupy]
  split
  · refine ⟨ms, fs ++ [_], rfl, hms, fun f hf => ?_⟩
    rcases List.mem_append.1 hf with hf | hf
    · exact hfs f hf
    · rw [List.mem_singleton.1 hf]
      exact ⟨rfl, _, _, rfl⟩
  · refine ⟨ms ++ [⟨q.name, name, .generated⟩], fs, rfl, fun e he => ?_, hfs⟩
    rcases List.mem_append.1 he with he | he
    · exact hms e he
    · rw [List.mem_singleton.1 he]
      exact ⟨rfl, rfl⟩

theorem hasReserved_reserved (d : MeaningDecl) (asc subs : List Text) :
    HasReserved (start d asc subs) (reserved above d asc subs) :=
  foldl_keeps (fun _ h name => h.reserve above name) ⟨[], [], rfl, by simp, by simp⟩

theorem exists_breakdown (d : MeaningDecl) (asc subs : List Text) : ∃ generated reserved fields ctor methods entries,
    (ofDecl above d asc subs).Breakdown above generated reserved fields ctor methods entries := by
  obtain ⟨generated, reserved, hreserved, hgenerated, hfs⟩ := hasReserved_reserved above d asc subs
  obtain ⟨kept, fields, hfields, h₂⟩ := foldl_addField_settles above (Profile.reserved above d asc subs)
    (by rw [hreserved]; rfl) d.fields
  obtain ⟨ctor, found, hctor, h₃, hfound⟩ := setConstructor_settles above (d.fields.foldl (addField above) _)
  obtain ⟨entries, methods, hmethods, h₄⟩ := foldl_addMethod_settles above
    ((d.fields.foldl (addField above) (Profile.reserved above d asc subs)).setConstructor above)
    (by rw [h₃, h₂, hreserved]; rfl) (by rw [h₃, h₂, hreserved]; rfl) d.methods
  -- each stage starts from what the one before left, so the equations are put into each other
  rw [← ofDecl_eq, h₃, h₂, hreserved] at h₄
  rw [h₂, hreserved] at hctor hfound
  rw [hreserved] at hfields
  rw [h₃, h₂, hreserved] at hmethods
  refine ⟨generated, reserved, fields, found, methods, entries, ?_⟩
  rw [h₄]
  exact ⟨rfl, rfl, hgenerated, hfs, hfields, hctor, hctor ▸ hfound, hmethods, rfl, rfl⟩

/-- A root that declares a field twice, a field named like a member that it has anyway, two constructors, a method twice
and an override of nothing. -/
def shelf : MeaningDecl :=
  let at_ : Position := ⟨1, 1⟩
  let field (name : Text) : FieldDecl := { position := at_, name, isRef := false, type := "int", default := [] }
  let method (name : Text) (isOverride : Bool) : MethodDecl :=
    { position := at_, name, isOverride, doc := [], typeParams := [], params := [], results := [], body := [] }
  let ctor : ConstructorDecl := { position := at_, typeParams := [], params := [], superArgs := none, body := [] }
  { position := at_, name := "Shelf", parent := [], parentPosition := at_, doc := []
    fields := [field "size", field "size", field "root"], constructors := [ctor, ctor]
    methods := [method "Draw" false, method "Draw" false, method "Fold" true] }

example : (@ofDecl .english [] shelf ["Shelf"] []).findings.map (·.problem) =
    [.redefining "size", .memberConflict "Shelf" "root" "Shelf", .duplicateConstructor "Shelf",
      .duplicateMethod "Shelf" "Draw", .overrideMissing "Shelf" "Fold"] := by decide +kernel

end Profile

namespace Analysis

/-! ### Overrides -/

variable {a : Analysis}

/-- An override is the last one on its path. -/
theorem Complete.getLast?_overridesOf (ha : a.Complete) {owner n : Text} {o : Override}
    (ho : o ∈ a.overridesOf owner n) : ((a.overridesOf owner n).filter (·.path == o.path)).getLast? = some o := by
  cases hlast : ((a.overridesOf owner n).filter (·.path == o.path)).getLast? with
  | none =>
    rw [List.getLast?_eq_none_iff, List.filter_eq_nil_iff] at hlast
    exact absurd (beq_self_eq_true o.path) (hlast o ho)
  | some o' =>
    obtain ⟨ho', hpath⟩ := List.mem_filter.1 (List.mem_of_getLast? hlast)
    rw [ha.override_unique ho' ho (beq_iff_eq.1 hpath)]

/-- The tree of a method holds the code of its overrides, each at its path, and nothing else. -/
theorem Complete.codeAt_iff (ha : a.Complete) {q : Profile} (hq : q ∈ a.profiles) {g : Method} (hg : g ∈ q.methods) :
    ∃ tree, a.overrideTree q.name g.name = .ok tree ∧ ∀ path call, tree.codeAt path = some call ↔
      ∃ p ∈ a.profiles, ∃ o ∈ p.overrides, o.base = g ∧ o.path = path ∧ o.call = call := by
  obtain ⟨tree, htree, hcode⟩ := ha.exists_overrideTree q.name g.name
  refine ⟨tree, htree, fun path call => ⟨fun hcall => ?_, ?_⟩⟩
  · obtain ⟨p, hp, o, ho, hbase, hpath, -, hcall⟩ := ha.exists_override_of_codeAt hq hg htree hcall
    exact ⟨p, hp, o, ho, hbase, hpath, hcall⟩
  · rintro ⟨p, hp, o, hop, rfl, rfl, hcall⟩
    have ho : o ∈ a.overridesOf q.name o.base.name :=
      mem_overridesOf.2 ⟨p, hp, hop, ha.method_owner hq hg, rfl⟩
    rw [hcode, Option.map_eq_some_iff]
    exact ⟨o, ha.getLast?_overridesOf ho, hcall⟩

/-! ### The whole file -/

/-- Every declared meaning, field, method, override and constructor is there, once and in order. -/
structure Present (a : Analysis) : Prop where
  meanings : a.forest.nodes.map (·.decl) = a.file.meanings
  profiles : (a.profiles.map (·.decl)).Perm a.file.meanings
  fields : ∀ p ∈ a.profiles, p.fields = p.decl.fields.map Profile.slotOf
  methods : ∀ p ∈ a.profiles, p.methods.map (·.decl) = p.decl.methods.filter (!·.isOverride)
  overrides : ∀ p ∈ a.profiles, p.overrides.map (·.decl) = p.decl.methods.filter (·.isOverride)
  constructors : ∀ p ∈ a.profiles, p.decl.constructors = [] ∨ p.decl.constructors = [p.ctor.decl]

/-- Every declaration of a file is kept or reported, and nothing is reported that is not accounted for. -/
structure Accounted [Language] (a : Analysis) : Prop where
  meanings : ∃ rejected lineage,
    a.findings = rejected ++ lineage ++ a.forest.nameFindings a.arena ++ a.profiles.flatMap (·.findings) ∧
    Settled (Forest.Admits a.arena) (Forest.Rejects a.arena) [] a.file.meanings (a.forest.nodes.map (·.decl)) rejected ∧
    ∀ f ∈ lineage, Forest.ConcernsParent f
  profiles : (a.profiles.map (·.decl)).Perm (a.forest.nodes.map (·.decl))
  members : ∀ p ∈ a.profiles, ∃ asc above generated reserved fields ctor methods entries,
    a.Chain asc (above ++ [p]) ∧ p.Breakdown above generated reserved fields ctor methods entries
  bases : ∀ p ∈ a.profiles, ∀ o ∈ p.overrides, ∃ q ∈ a.profiles, o.base ∈ q.methods
  overrides : ∀ q ∈ a.profiles, ∀ g ∈ q.methods, ∃ tree, a.overrideTree q.name g.name = .ok tree ∧
    ∀ path call, tree.codeAt path = some call ↔
      ∃ p ∈ a.profiles, ∃ o ∈ p.overrides, o.base = g ∧ o.path = path ∧ o.call = call
  present : a.findings = [] → a.Present

/-- Every registered meaning has one profile. -/
theorem Complete.decls_perm (ha : a.Complete) : (a.profiles.map (·.decl)).Perm (a.forest.nodes.map (·.decl)) := by
  let declOf : Text → Option MeaningDecl := fun m => (a.forest.node? m).map (·.decl)
  have hnode : ∀ n ∈ a.forest.nodes, declOf n.name = some n.decl := fun n hn => by
    rw [show declOf n.name = (a.forest.node? n.name).map (·.decl) from rfl, Forest.node?_of_mem ha.sound.nodup hn]
    rfl
  have hnodes : a.forest.names.filterMap declOf = a.forest.nodes.map (·.decl) := by
    rw [Forest.names, List.filterMap_map, ← List.filterMap_eq_map]
    exact List.filterMap_congr hnode
  have hprofiles : (a.profiles.map (·.name)).filterMap declOf = a.profiles.map (·.decl) := by
    rw [List.filterMap_map, ← List.filterMap_eq_map]
    refine List.filterMap_congr fun p hp => ?_
    obtain ⟨n, hn, above, asc, subs, rfl⟩ := ha.exists_ofDecl hp
    simp only [Function.comp, Profile.ofDecl_name, Profile.ofDecl_decl]
    exact hnode n hn
  rw [← hnodes, ← hprofiles]
  exact ha.perm.filterMap declOf

theorem Complete.exists_breakdown (ha : a.Complete) {p : Profile} (hp : p ∈ a.profiles) :
    ∃ asc above generated reserved fields ctor methods entries,
      a.Chain asc (above ++ [p]) ∧ p.Breakdown above generated reserved fields ctor methods entries := by
  obtain ⟨asc, above, -, hchain⟩ := ha.exists_chain_of_mem hp
  obtain ⟨n, -, hn⟩ := hchain.made above p [] rfl
  obtain ⟨generated, reserved, fields, ctor, methods, entries, h⟩ :=
    Profile.exists_breakdown above n.decl (above.map (·.name) ++ [n.name]) (a.forest.submeanings n.name)
  exact ⟨asc, above, generated, reserved, fields, ctor, methods, entries, hchain, hn ▸ h⟩

/-- A meaning of whose constructors nothing is reported has one at most. -/
theorem constructors_of_clean {p : Profile} {above : List Profile} {generated : List Member}
    {reserved fields ctor methods : List Finding} {entries : List Profile.MethodEntry}
    (h : p.Breakdown above generated reserved fields ctor methods entries)
    (hclean : p.findings = []) : p.decl.constructors = [] ∨ p.decl.constructors = [p.ctor.decl] := by
  have hfindings := h.findings_eq
  rw [hclean, eq_comm] at hfindings
  simp only [List.append_eq_nil_iff, Profile.furtherConstructors, List.map_eq_nil_iff] at hfindings
  rw [h.ctor_eq, Profile.constructorDecl]
  cases hc : p.decl.constructors with
  | nil => exact .inl rfl
  | cons c cs =>
    rw [hc] at hfindings
    obtain rfl : cs = [] := hfindings.1.1.2
    exact .inr rfl

theorem Complete.present (ha : a.Complete) (hclean : a.findings = []) : a.Present where
  meanings := ha.decls_eq hclean
  profiles := ha.decls_eq hclean ▸ ha.decls_perm
  fields := fun _ hp => (ha.profile_clean hclean hp).2.1
  methods := fun _ hp => (ha.profile_clean hclean hp).2.2.1
  overrides := fun _ hp => (ha.profile_clean hclean hp).2.2.2
  constructors := by
    intro p hp
    obtain ⟨_, _, _, _, _, _, _, _, _, h⟩ := ha.exists_breakdown hp
    exact constructors_of_clean h (ha.findings_profile hclean hp)

theorem Complete.accounted (ha : a.Complete) : a.Accounted where
  meanings := by
    obtain ⟨rejected, lineage, hfindings, hlineage, hsettled⟩ :=
      Forest.exists_settled_meanings a.arena a.file.meanings
    refine ⟨rejected, lineage, ?_, ?_, hlineage⟩
    · rw [ha.findings_eq, hfindings]
    · rw [ha.forest_eq]
      exact hsettled
  profiles := ha.decls_perm
  members := fun _ hp => ha.exists_breakdown hp
  bases := by
    intro p hp o ho
    obtain ⟨q, hq, hbase, -⟩ := ha.override_spec hp ho
    exact ⟨q, hq, hbase⟩
  overrides := fun _ hq _ hg => ha.codeAt_iff hq hg
  present := ha.present

/-! ### Symbols -/

/-- The symbols of the meanings list what their profiles have: fields and methods in order and nothing else, and for
each method the code of its overrides. -/
structure Registered (a : Analysis) (r : Recording) : Prop where
  meanings : r.meanings.keys = a.forest.names
  members : ∀ p ∈ a.profiles, ∃ d, r.table.meaning (r.symbol p.name) = .ok d ∧
    d.fields.keys = p.fields.map (·.name) ∧ d.methods.keys = p.methods.map (·.name) ∧
    (∀ x ∈ p.fields, ∃ s, d.fields.get? x.name = some s ∧ r.table.field s = .ok x) ∧
    ∀ g ∈ p.methods, ∃ s h, d.methods.get? g.name = some s ∧ r.table.method s = .ok h ∧ h.name = g.name ∧
      h.definedIn = r.symbol p.name ∧ ∀ q ∈ a.profiles, ∀ o ∈ q.overrides, o.base = g →
        h.mapping.codeAt (o.path.map r.symbol) = some o.call.text

theorem Complete.exists_registered (ha : a.Complete) (t : SymbolTable) (hcount : a.symbolCount ≤ 4294967296) :
    ∃ r, a.record t = .ok r ∧ a.Registered r := by
  obtain ⟨r, n, hr, hholds⟩ := ha.exists_record t hcount
  have hlists := ha.lists hcount hr
  refine ⟨r, hr, hlists.meanings, fun p hp => ?_⟩
  obtain ⟨d, hd, hdm⟩ := hholds.meaning p.name (ha.name_mem hp)
  obtain ⟨d', hd', hfields, hmethods⟩ := hlists.meaning p.name (ha.name_mem hp)
  obtain rfl := Except.ok.inj (hd.symm.trans hd')
  rw [ha.namesIn_eq _ hp] at hfields hmethods
  refine ⟨d, hd, hfields, hmethods, fun x hx => ?_, fun g hg => ?_⟩
  · exact hdm.field (p.name, x) (List.mem_flatMap.2 ⟨p, hp, List.mem_map_of_mem hx⟩) rfl
  · have howner := ha.method_owner hp hg
    obtain ⟨s, h, hs, hmethod⟩ := hdm.method g (List.mem_flatMap.2 ⟨p, hp, hg⟩) howner
    refine ⟨s, h, hs, hmethod.read, hmethod.name, howner ▸ hmethod.definedIn, ?_⟩
    rintro q hq o ho rfl
    rw [hmethod.code _ (ha.override_path hq ho).2]
    have hmem : o ∈ a.overridesOf o.base.owner o.base.name := mem_overridesOf.2 ⟨q, hq, ho, rfl, rfl⟩
    exact (codeAlong_eq a o.base o.path).trans (by rw [ha.getLast?_overridesOf hmem]; rfl)

/-- No declaration is lost: each is kept or reported, and without findings all are there.  What is kept is in the
symbol table as well, provided that an index of 32 bits tells the symbols apart. -/
theorem exists_accounted (settings : Settings) (file : DeclFile) : ∃ a, ofFile settings file = .ok a ∧ a.file = file ∧
    a.Accounted ∧ a.symbolCount ≤ declarationCount file ∧
    (a.symbolCount ≤ 4294967296 → ∀ t, ∃ r, a.record t = .ok r ∧ a.Registered r) := by
  obtain ⟨a, hofFile, rfl, -, ha⟩ := exists_ofFile settings file
  exact ⟨a, hofFile, rfl, ha.accounted, ha.symbolCount_le, fun hcount t => ha.exists_registered t hcount⟩

/-- A meaning that is declared twice, and one below it that overrides a method of it. -/
def crowded : DeclFile :=
  { name := "crowded.mt", meanings := [Profile.shelf, Profile.shelf, { Profile.shelf with
      name := "Cupboard", parent := "Shelf"
      methods := Profile.shelf.methods.map fun d => { d with name := "Draw", isOverride := true } }] }

theorem accounted_crowded : (∃ a r, @ofFile .english {} crowded = .ok a ∧ @Accounted .english a ∧ a.record {} = .ok r ∧
    a.Registered r) ∧
    ∃ a, @ofFile .english {} branches = .ok a ∧ a.findings = [] ∧ a.Present := by
  obtain ⟨a, ha, -, haccounted, hcount, hregistered⟩ := exists_accounted {} crowded
  obtain ⟨r, hr, hr'⟩ := hregistered (hcount.trans (by decide)) {}
  obtain ⟨b, hb, -, haccounted', -⟩ := exists_accounted {} branches
  obtain ⟨c, hc, hclean⟩ := exists_clean (by decide +kernel : @cleanInOrder .english {} branches)
  obtain rfl : b = c := Except.ok.inj (hb.symm.trans hc)
  exact ⟨⟨a, r, ha, haccounted, hr, hr'⟩, b, hb, hclean, @Accounted.present .english b haccounted' hclean⟩

end Analysis

end MeaningForest

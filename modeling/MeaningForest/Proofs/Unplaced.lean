import MeaningForest.Analysis.Basic
import MeaningForest.Proofs.Faultless

/-!
# Declarations without places

Declarations carry the places where they were written.  Leaving these out (`unplaced`) commutes with all that the
analysis does to a forest and to a profile: what is decided never depends on a place, and places are only copied into
findings.

* The forest of declarations without places is the forest without places (`Forest.ofDecls_unplaced`).  The conflicts
  between generated names are the same, though one of them has a place of its own (`Forest.nameFindings_unplaced`).
* The profile of a declaration without places is its profile without places (`Profile.ofDecl_unplaced`).
-/

namespace MeaningForest

variable {lang : Language}

/-! ### Leaving out places -/

def ImportDecl.unplaced (d : ImportDecl) : ImportDecl := { d with position := .none }

def FieldDecl.unplaced (d : FieldDecl) : FieldDecl := { d with position := .none }

def ConstructorDecl.unplaced (d : ConstructorDecl) : ConstructorDecl := { d with position := .none }

def MethodDecl.unplaced (d : MethodDecl) : MethodDecl := { d with position := .none }

def MeaningDecl.unplaced (d : MeaningDecl) : MeaningDecl :=
  { d with
    position := .none, parentPosition := .none
    fields := d.fields.map FieldDecl.unplaced
    constructors := d.constructors.map ConstructorDecl.unplaced
    methods := d.methods.map MethodDecl.unplaced }

/-- A declaration file without the places of its declarations. -/
def DeclFile.unplaced (f : DeclFile) : DeclFile :=
  { f with imports := f.imports.map ImportDecl.unplaced, meanings := f.meanings.map MeaningDecl.unplaced }

def Located.unplaced {α : Type} (p : Located α) : Located α := { p with position := .none }

@[simp] theorem Located.unplaced_found {α : Type} [Problem α] (position : Position) (problem : α) :
    (found position problem).unplaced = found .none problem := rfl

def ForestNode.unplaced (n : ForestNode) : ForestNode := { n with decl := n.decl.unplaced }

def Forest.unplaced (f : Forest) : Forest := ⟨f.nodes.map ForestNode.unplaced⟩

/-- A run along a list commutes with a change of the state and of the elements if every step does. -/
theorem foldl_map_of_step {α α' σ σ' : Type} {f : σ → α → σ} {k : σ' → α' → σ'} {g : σ → σ'} {h : α → α'}
    (step : ∀ s a, k (g s) (h a) = g (f s a)) (l : List α) (s : σ) : (l.map h).foldl k (g s) = g (l.foldl f s) := by
  rw [List.foldl_map]
  exact List.foldl_hom g fun s a => step s a

theorem mapM_map_of_step {ε α α' β β' : Type} {f : α → Except ε β} {k : α' → Except ε β'} {g : β → β'} {h : α → α'}
    (step : ∀ a, k (h a) = (f a).map g) (l : List α) : (l.map h).mapM k = (l.mapM f).map (List.map g) := by
  induction l with
  | nil => rfl
  | cons a l ih =>
    rw [List.map_cons, List.mapM_cons, List.mapM_cons, step, ih]
    cases f a with
    | error e => rfl
    | ok b => cases l.mapM f <;> rfl

namespace Forest

variable (f : Forest)

/-! ### Forests -/

theorem names_unplaced : f.unplaced.names = f.names := by
  simp only [names, unplaced, List.map_map]
  rfl

theorem parent?_unplaced (m : Text) : f.unplaced.parent? m = f.parent? m := by
  have hnode : f.unplaced.node? m = (f.node? m).map ForestNode.unplaced := by
    simp only [node?, unplaced, List.find?_map]
    rfl
  rw [parent?, hnode, Option.bind_map]
  rfl

theorem submeanings_unplaced (m : Text) : f.unplaced.submeanings m = f.submeanings m := by
  simp only [submeanings, unplaced, List.filter_map, List.map_map]
  rfl

theorem ascending_unplaced (m : Text) : f.unplaced.ascending m = f.ascending m := by
  have hlength : f.unplaced.nodes.length = f.nodes.length := List.length_map _
  simp only [ascending, parent?_unplaced, hlength]

theorem any_name_unplaced (ds : List MeaningDecl) (m : Text) :
    (ds.map MeaningDecl.unplaced).any (·.name == m) = ds.any (·.name == m) := List.any_map

theorem register_unplaced (arena : Text) (acc : List MeaningDecl × List Finding) (d : MeaningDecl) :
    register arena (acc.map (List.map MeaningDecl.unplaced) (List.map Located.unplaced)) d.unplaced =
      (register arena acc d).map (List.map MeaningDecl.unplaced) (List.map Located.unplaced) := by
  have hrejection : rejection? arena (acc.1.map MeaningDecl.unplaced) d.unplaced = rejection? arena acc.1 d := by
    rw [rejection?, any_name_unplaced]
    rfl
  rw [register, register, Prod.map_fst, hrejection]
  cases rejection? arena acc.1 d <;> simp [Prod.map, MeaningDecl.unplaced]

theorem attach_unplaced (ds : List MeaningDecl) (d : MeaningDecl) :
    attach (ds.map MeaningDecl.unplaced) d.unplaced = (attach ds d).unplaced := by
  rw [attach, any_name_unplaced]
  rfl

theorem unknownParent?_unplaced (ds : List MeaningDecl) (d : MeaningDecl) :
    unknownParent? (ds.map MeaningDecl.unplaced) d.unplaced = (unknownParent? ds d).map Located.unplaced := by
  rw [unknownParent?, unknownParent?, any_name_unplaced, apply_ite (Option.map Located.unplaced)]
  rfl

theorem wayTo?_unplaced (m : Text) (steps : Nat) (a : Text) : f.unplaced.wayTo? m steps a = f.wayTo? m steps a := by
  induction steps generalizing a with
  | zero => rfl
  | succ steps ih => simp only [wayTo?, parent?_unplaced, ih]

theorem cycle?_unplaced (m : Text) : f.unplaced.cycle? m = f.cycle? m := by
  have hlength : f.unplaced.nodes.length = f.nodes.length := List.length_map _
  rw [cycle?, cycle?, hlength, wayTo?_unplaced]

theorem detach_unplaced (m : Text) : f.unplaced.detach m = (f.detach m).unplaced := by
  simp only [detach, unplaced, List.map_map, Function.comp_def, apply_ite ForestNode.unplaced]
  rfl

theorem breakCycle_unplaced (acc : Forest × List Finding) (n : ForestNode) :
    breakCycle (acc.map unplaced (List.map Located.unplaced)) n.unplaced =
      (breakCycle acc n).map unplaced (List.map Located.unplaced) := by
  have hname : n.unplaced.name = n.name := rfl
  rw [breakCycle, breakCycle, Prod.map_fst, hname, cycle?_unplaced]
  cases acc.1.cycle? n.name with
  | none => rfl
  | some cycle =>
    simp only [Prod.map, detach_unplaced, List.map_append]
    rfl

theorem ofDecls_unplaced (arena : Text) (decls : List MeaningDecl) :
    ofDecls arena (decls.map MeaningDecl.unplaced) =
      (ofDecls arena decls).map unplaced (List.map Located.unplaced) := by
  have hregistered := foldl_map_of_step (@register_unplaced lang arena) decls ([], [])
  have hempty : Prod.map (List.map MeaningDecl.unplaced) (List.map Located.unplaced)
      (([], []) : List MeaningDecl × List Finding) = ([], []) := rfl
  rw [hempty] at hregistered
  rw [ofDecls_eq, ofDecls_eq, hregistered]
  obtain ⟨registered, rejected⟩ := decls.foldl (register arena) ([], [])
  have hnodes : (registered.map MeaningDecl.unplaced).map (attach (registered.map MeaningDecl.unplaced)) =
      (registered.map (attach registered)).map ForestNode.unplaced := by
    simp only [List.map_map, Function.comp_def, attach_unplaced]
  have hunknown : (registered.map MeaningDecl.unplaced).filterMap
      (unknownParent? (registered.map MeaningDecl.unplaced)) =
      (registered.filterMap (unknownParent? registered)).map Located.unplaced := by
    simp only [List.filterMap_map, List.map_filterMap, Function.comp_def, unknownParent?_unplaced]
  have hcycles := foldl_map_of_step (@breakCycle_unplaced lang) (registered.map (attach registered))
    (⟨registered.map (attach registered)⟩, [])
  have hstart : Prod.map unplaced (List.map Located.unplaced)
      ((⟨registered.map (attach registered)⟩, []) : Forest × List Finding) =
      (⟨(registered.map (attach registered)).map ForestNode.unplaced⟩, []) := rfl
  rw [hstart] at hcycles
  simp only [Prod.map, hnodes, hunknown, hcycles, List.map_append]

/-! ### Generated names -/

theorem takeTopLevel_unplaced (acc : Owners × List Finding) (n : ForestNode) :
    f.unplaced.takeTopLevel (acc.map id (List.map Located.unplaced)) n.unplaced =
      (f.takeTopLevel acc n).map id (List.map Located.unplaced) := by
  have hname : n.unplaced.name = n.name := rfl
  rw [takeTopLevel, takeTopLevel, Prod.map_fst, id_eq, hname, submeanings_unplaced]
  obtain ⟨owners, clash⟩ := takeNames n.name acc.1 (topLevelNames n.name (f.submeanings n.name))
  cases clash <;> simp [Prod.map, ForestNode.unplaced, MeaningDecl.unplaced]

theorem nameFindings_unplaced (arena : Text) :
    (f.unplaced.nameFindings arena).map Located.unplaced = (f.nameFindings arena).map Located.unplaced := by
  have htaken := foldl_map_of_step (@takeTopLevel_unplaced lang f) f.nodes ([], [])
  have hempty : Prod.map id (List.map Located.unplaced) (([], []) : Owners × List Finding) = ([], []) := rfl
  rw [hempty] at htaken
  have hnodes : f.unplaced.nodes = f.nodes.map ForestNode.unplaced := rfl
  rw [nameFindings, nameFindings, hnodes, htaken]
  obtain ⟨owners, clashes⟩ := f.nodes.foldl f.takeTopLevel ([], [])
  simp only [Prod.map, List.map_append, List.filter_map, List.map_map, Function.comp_def]
  rfl

/-! ### Order -/

theorem byDepth_unplaced :
    f.unplaced.byDepth = f.byDepth.map (List.map (Prod.map ForestNode.unplaced id)) := by
  have hranked := mapM_map_of_step (g := Prod.map ForestNode.unplaced id) (h := ForestNode.unplaced)
    (f := fun n => return (n, ← f.ascending n.name)) (k := fun n => return (n, ← f.unplaced.ascending n.name))
    (fun n => by
      have hname : n.unplaced.name = n.name := rfl
      rw [hname, ascending_unplaced]
      cases f.ascending n.name <;> rfl) f.nodes
  have hnodes : f.unplaced.nodes = f.nodes.map ForestNode.unplaced := rfl
  rw [byDepth, byDepth, hnodes, hranked]
  cases f.nodes.mapM fun n => return (n, ← f.ascending n.name) with
  | error e => rfl
  | ok ranked =>
    have hsort := List.map_mergeSort (f := Prod.map ForestNode.unplaced (id : List Text → List Text)) (l := ranked)
      (r := fun a b => a.2.length ≤ b.2.length) (s := fun a b => a.2.length ≤ b.2.length) fun _ _ _ _ => rfl
    exact congrArg Except.ok hsort.symm

end Forest

/-! ### Profiles -/

def Constructor.unplaced (c : Constructor) : Constructor := { c with decl := c.decl.unplaced }

def Method.unplaced (f : Method) : Method := { f with decl := f.decl.unplaced }

def Override.unplaced (o : Override) : Override := { o with decl := o.decl.unplaced, base := o.base.unplaced }

namespace Profile

/-- A profile without the places of declarations and findings. -/
def unplaced (p : Profile) : Profile :=
  { p with
    decl := p.decl.unplaced
    ctor := p.ctor.unplaced
    methods := p.methods.map Method.unplaced
    overrides := p.overrides.map Override.unplaced
    findings := p.findings.map Located.unplaced }

variable (above : List Profile) (p : Profile)

theorem report_unplaced (position : Position) (problem : AnalysisProblem) :
    p.unplaced.report .none problem = (p.report position problem).unplaced := by
  simp only [report, unplaced, List.map_append]
  rfl

theorem conflict?_unplaced (kind : MemberKind) (names : List Text) :
    p.unplaced.conflict? (above.map unplaced) kind names = p.conflict? above kind names := by
  simp only [conflict?, List.flatMap_map]
  rfl

theorem occupy_unplaced (position : Position) (kind : MemberKind) (names : List Text) {next next' : Profile → Profile}
    (hnext : ∀ p, next' p.unplaced = (next p).unplaced) :
    p.unplaced.occupy (above.map unplaced) .none kind names next' =
      (p.occupy above position kind names next).unplaced := by
  rw [occupy, occupy, conflict?_unplaced]
  cases p.conflict? above kind names with
  | some c => exact report_unplaced p position _
  | none => exact hnext { p with members := p.members ++ names.map fun name => ⟨p.name, name, kind⟩ }

theorem reserve_unplaced (name : Text) : p.unplaced.reserve (above.map unplaced) name =
    (p.reserve above name).unplaced :=
  occupy_unplaced above p p.decl.position .generated [name] fun _ => rfl

theorem addField_unplaced (d : FieldDecl) :
    p.unplaced.addField (above.map unplaced) d.unplaced = (p.addField above d).unplaced := by
  rw [addField, addField, apply_ite unplaced]
  refine if_congr Iff.rfl (report_unplaced p d.position _) ?_
  exact occupy_unplaced above p d.position .accessor [d.name, setterName d.name] fun _ => rfl

theorem setParams_unplaced : p.unplaced.setParams = p.setParams.unplaced := by
  have hparams : p.unplaced.ctor.decl.params = p.ctor.decl.params := rfl
  simp only [setParams, hparams]
  cases Signature.parse p.ctor.decl.params with
  | error fault => exact report_unplaced p p.ctor.decl.position _
  | ok s =>
    simp only [apply_ite unplaced]
    exact if_congr Iff.rfl (report_unplaced p p.ctor.decl.position _) rfl

theorem setTypeParams_unplaced : p.unplaced.setTypeParams = p.setTypeParams.unplaced := by
  have hparams : p.unplaced.ctor.decl.typeParams = p.ctor.decl.typeParams := rfl
  simp only [setTypeParams, hparams]
  cases parseTypeParams p.ctor.decl.typeParams with
  | error fault => exact report_unplaced p p.ctor.decl.position _
  | ok names => rfl

theorem checkSuper_unplaced : p.unplaced.checkSuper (above.map unplaced) = (p.checkSuper above).unplaced := by
  have hsuper : p.unplaced.ctor.decl.superArgs = p.ctor.decl.superArgs := rfl
  rw [checkSuper, checkSuper, hsuper, List.getLast?_map]
  cases p.ctor.decl.superArgs with
  | some args =>
    cases above.getLast? with
    | none => exact report_unplaced p p.ctor.decl.position _
    | some parent => rfl
  | none =>
    cases above.getLast? with
    | none => rfl
    | some parent =>
      simp only [Option.map_some, apply_ite unplaced]
      exact if_congr Iff.rfl rfl (report_unplaced p p.ctor.decl.position _)

theorem setConstructor_unplaced : p.unplaced.setConstructor (above.map unplaced) =
    (p.setConstructor above).unplaced := by
  have htail : p.unplaced.decl.constructors.tail = p.decl.constructors.tail.map ConstructorDecl.unplaced :=
    List.map_tail.symm
  rw [setConstructor, setConstructor, htail, foldl_map_of_step (g := unplaced)
    fun p d => report_unplaced p d.position _, setParams_unplaced, setTypeParams_unplaced, checkSuper_unplaced]
  rfl

theorem readMethod_unplaced (m : Text) (d : MethodDecl) :
    readMethod m d.unplaced = (readMethod m d).map Method.unplaced := by
  dsimp only [readMethod, MethodDecl.unplaced]
  cases d.typeParams.isEmpty with
  | false => rfl
  | true =>
    cases Signature.parse d.params with
    | error fault => rfl
    | ok params =>
      cases hunnamed : params.unnamed with
      | true => simp [Except.mapError, bind, Except.bind, hunnamed, throw, throwThe, MonadExceptOf.throw, Except.map]
      | false =>
        cases parseResults d.results with
        | error fault => simp [Except.mapError, bind, Except.bind, hunnamed, Except.map]
        | ok results => simp [Except.mapError, bind, Except.bind, hunnamed, Except.map]; rfl

theorem inheritedMethod?_unplaced (name : Text) :
    inheritedMethod? (above.map unplaced) name = (inheritedMethod? above name).map Method.unplaced := by
  have hfind : ∀ a : Profile, a.unplaced.methods.find? (·.name == name) =
      (a.methods.find? (·.name == name)).map Method.unplaced := fun _ => List.find?_map
  simp only [inheritedMethod?, ← List.map_reverse, List.findSome?_map, Function.comp_def, hfind]
  exact List.map_findSome?.symm

theorem defineMethod_unplaced (f : Method) :
    p.unplaced.defineMethod (above.map unplaced) f.unplaced = (p.defineMethod above f).unplaced := by
  have hany : p.unplaced.methods.any (·.name == f.name) = p.methods.any (·.name == f.name) := List.any_map
  have hname : f.unplaced.name = f.name := rfl
  simp only [defineMethod, hname, hany, inheritedMethod?_unplaced, apply_ite unplaced]
  refine if_congr Iff.rfl (report_unplaced p f.decl.position _) ?_
  cases inheritedMethod? above f.name with
  | some base => exact report_unplaced p f.decl.position _
  | none =>
    refine occupy_unplaced above p f.decl.position .method [f.name] fun p => ?_
    simp only [unplaced, List.map_append, List.map_singleton]

theorem overrideMethod_unplaced (f : Method) :
    p.unplaced.overrideMethod (above.map unplaced) f.unplaced = (p.overrideMethod above f).unplaced := by
  have hany : p.unplaced.overrides.any (·.decl.name == f.name) = p.overrides.any (·.decl.name == f.name) := List.any_map
  have hname : f.unplaced.name = f.name := rfl
  simp only [overrideMethod, hname, inheritedMethod?_unplaced]
  cases inheritedMethod? above f.name with
  | none => exact report_unplaced p f.decl.position _
  | some base =>
    have htypes : f.unplaced.sameTypes base.unplaced = f.sameTypes base := rfl
    simp only [Option.map_some, hany, htypes, apply_ite unplaced]
    refine if_congr Iff.rfl (report_unplaced p f.decl.position _) (if_congr Iff.rfl ?_ ?_)
    · simp only [unplaced, List.map_append]
      rfl
    · exact report_unplaced p f.decl.position _

theorem addMethod_unplaced (d : MethodDecl) :
    p.unplaced.addMethod (above.map unplaced) d.unplaced = (p.addMethod above d).unplaced := by
  have hname : p.unplaced.name = p.name := rfl
  rw [addMethod, addMethod, hname, readMethod_unplaced]
  cases readMethod p.name d with
  | error problem => exact report_unplaced p d.position problem
  | ok f =>
    simp only [Except.map, apply_ite unplaced]
    exact if_congr Iff.rfl (overrideMethod_unplaced above p f) (defineMethod_unplaced above p f)

theorem ofDecl_unplaced (d : MeaningDecl) (ascending submeanings : List Text) :
    ofDecl (above.map unplaced) d.unplaced ascending submeanings = (ofDecl above d ascending submeanings).unplaced := by
  have hctor : constructorDecl d.unplaced = (constructorDecl d).unplaced := by
    have hhead : d.unplaced.constructors.head? = d.constructors.head?.map ConstructorDecl.unplaced := List.head?_map
    rw [constructorDecl, constructorDecl, hhead]
    cases d.constructors.head? <;> rfl
  obtain ⟨p, hp⟩ : ∃ p : Profile, p = { decl := d, ascending, submeanings, ctor := { decl := constructorDecl d } } :=
    ⟨_, rfl⟩
  have hp' : p.unplaced =
      { decl := d.unplaced, ascending, submeanings, ctor := { decl := constructorDecl d.unplaced } } := by
    rw [hp, hctor]
    rfl
  have hreserved : p.unplaced.reservedNames.foldl (reserve (above.map unplaced)) p.unplaced =
      (p.reservedNames.foldl (reserve above) p).unplaced :=
    List.foldl_hom unplaced fun p name => reserve_unplaced above p name
  have hfields : d.unplaced.fields = d.fields.map FieldDecl.unplaced := rfl
  have hmethods : d.unplaced.methods = d.methods.map MethodDecl.unplaced := rfl
  simp only [ofDecl, ← hp, ← hp']
  rw [hreserved, hfields, hmethods, foldl_map_of_step (addField_unplaced above), setConstructor_unplaced,
    foldl_map_of_step (addMethod_unplaced above)]

end Profile

end MeaningForest

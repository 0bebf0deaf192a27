import MeaningForest.Proofs.Dispatch
import MeaningForest.Proofs.OverrideNames

/-!
# Virtual dispatch

A method begins with a block that narrows the object by the downcasts of the file (`Code.FileCode.downcast?`) and calls
an override by the name of its implementation.

* `Analysis.exists_dispatches_iff`: the block calls the override of the deepest meaning that overrides the method.  The
  name that it calls is that of one method of the handle type exactly if the meaning overrides no other method with the
  same name after capitalisation, and nothing else on the handle type has the name.
* `Analysis.dispatch_ambiguous_twins`: a block that calls a name which two methods have.
-/

namespace MeaningForest

open Code

variable {lang : Language}

namespace Code

theorem MethodCode.lines_infix {code : FileCode} {f : MethodCode} (h : f ∈ code.methods ∨ f ∈ code.overrides) :
    f.lines <:+: code.lines := by
  rcases h with h | h
  · obtain ⟨part, hpart, hf⟩ := List.mem_flatMap.1 h
    refine List.IsInfix.trans ?_ (MeaningCode.lines_infix hpart)
    refine (infix_flatMap_of_mem hf).trans ((List.suffix_append _ _).isInfix.trans (List.prefix_append _ _).isInfix)
  · obtain ⟨part, hpart, hf⟩ := List.mem_flatMap.1 h
    refine List.IsInfix.trans ?_ (MeaningCode.lines_infix hpart)
    exact (infix_flatMap_of_mem hf).trans (List.suffix_append _ _).isInfix

/-! ### Downcasts -/

namespace FileCode

/-- What a method of the handle type of a meaning narrows to. -/
def downcast? (code : FileCode) (m method : Text) : Option Text :=
  (code.meanings.find? (·.handle.meaning = m)).bind fun part =>
    (part.downcasts.find? (downcastName ·.sub = method)).map (·.sub)

/-- The file has the head of a method that narrows the handle of a meaning. -/
def HasDowncast (code : FileCode) (m method target : Text) : Prop :=
  line ("func (" ++ receiverName ++ " " ++ m ++ ") " ++ method ++ "() (" ++ target ++ ", bool) \x7b") ∈ code.lines

end FileCode

end Code

namespace Analysis

variable {a : Analysis} {settings : Settings} {code : FileCode}

theorem Complete.hasDowncast (ha : a.Complete) (hcode : a.fileCode settings = .ok code) {m method target : Text}
    (h : code.downcast? m method = some target) : code.HasDowncast m method target := by
  obtain ⟨part, hfind, h⟩ := Option.bind_eq_some_iff.1 h
  obtain ⟨d, hd, rfl⟩ := Option.map_eq_some_iff.1 h
  obtain rfl : part.handle.meaning = m := by simpa using List.find?_some hfind
  obtain rfl : downcastName d.sub = method := by simpa using List.find?_some hd
  have hpart := List.mem_of_find?_eq_some hfind
  have hmem := List.mem_of_find?_eq_some hd
  obtain ⟨p, -, root, below, methods, -, rfl⟩ := ha.exists_part hcode hpart
  obtain ⟨sub, -, rfl⟩ := List.mem_map.1 hmem
  refine (MeaningCode.lines_infix hpart).subset ?_
  have hlines : ∀ l ∈ DowncastCode.lines ⟨p.name, sub, pathTo p "variant"⟩,
      l ∈ (a.codeOf p root below methods).lines := fun l hl => by
    have := List.mem_flatMap.2 ⟨_, hmem, hl⟩
    simp [MeaningCode.lines, this]
  refine hlines _ (List.mem_cons_of_mem _ ?_)
  simp [braced, block, codeOf, Text.ofString]

/-- The handle type of a meaning has a downcast to each child. -/
theorem Complete.downcast?_eq (ha : a.Complete) (hclean : a.findings = []) (hcode : a.fileCode settings = .ok code)
    {m sub : Text} (h : a.forest.parent? sub = some m) : code.downcast? m (downcastName sub) = some sub := by
  obtain ⟨p, hfound⟩ := ha.exists_profile (ha.sound.closed _ _ h)
  obtain ⟨hp, rfl⟩ := mem_of_find hfound
  obtain ⟨root, below, methods, -, -, hpart⟩ := ha.exists_meaningCode hp
  have hpart := (ha.mem_meanings hcode).2 ⟨p, hp, hpart⟩
  have hfind : code.meanings.find? (·.handle.meaning = p.name) = some (a.codeOf p root below methods) :=
    find?_key hpart fun other hother => (ha.part_iff hcode hpart other hother).1
  have hnames : ((a.codeOf p root below methods).downcasts.map (downcastName ·.sub)).Nodup :=
    ((ha.members_nodup hclean hcode hp hpart).sublist (List.sublist_append_of_sublist_left
      (List.sublist_append_of_sublist_left (List.sublist_append_right ..))))
  have hmem : (⟨p.name, sub, pathTo p "variant"⟩ : DowncastCode) ∈ (a.codeOf p root below methods).downcasts :=
    List.mem_map_of_mem (ha.submeanings_eq hp ▸ ha.sound.mem_submeanings.2 h)
  have hsub : (a.codeOf p root below methods).downcasts.find? (downcastName ·.sub = downcastName sub) =
      some ⟨p.name, sub, pathTo p "variant"⟩ :=
    find?_key hmem fun d hd => List.inj_on_of_nodup_map hnames hd hmem
  rw [FileCode.downcast?]
  exact Option.bind_eq_some_iff.2 ⟨_, hfind, Option.map_eq_some_iff.2 ⟨_, hsub, rfl⟩⟩

end Analysis

/-! ### Implementations -/

/-- No other name on the handle type of a meaning is that of its override of `n`. -/
def MeaningDecl.SetsApart (d : MeaningDecl) (parent : Option Text) (n : Text) : Prop :=
  (∀ n' ∈ d.overridden, n'.capitalize = n.capitalize → n' = n) ∧ parent ≠ some (overrideName d.name n) ∧
    overrideName d.name n ∉ d.fields.map (·.name) ++ d.defined

instance (d : MeaningDecl) (parent : Option Text) (n : Text) : Decidable (d.SetsApart parent n) :=
  inferInstanceAs (Decidable (_ ∧ _ ∧ _))

/-- An element of a list without repetition is the only one with its image exactly if the image counts once. -/
theorem count_map_eq_one_iff {α β : Type} [BEq β] [LawfulBEq β] {f : α → β} {l : List α} (hnd : l.Nodup) {x : α}
    (hx : x ∈ l) : (l.map f).count (f x) = 1 ↔ ∀ y ∈ l, f y = f x → y = x := by
  obtain ⟨u, v, rfl⟩ := List.append_of_mem hx
  have hcount : ((u ++ x :: v).map f).count (f x) = (u.map f).count (f x) + (v.map f).count (f x) + 1 := by
    simp [List.count_append]
    omega
  have hzero : (u.map f).count (f x) + (v.map f).count (f x) + 1 = 1 ↔ f x ∉ u.map f ∧ f x ∉ v.map f := by
    rw [← List.count_eq_zero, ← List.count_eq_zero]
    omega
  rw [hcount, hzero]
  constructor
  · rintro ⟨hu, hv⟩ y hy heq
    rcases List.mem_append.1 hy with hy | hy
    · exact absurd (heq ▸ List.mem_map_of_mem hy) hu
    · rcases List.mem_cons.1 hy with rfl | hy
      · rfl
      · exact absurd (heq ▸ List.mem_map_of_mem hy) hv
  · intro hone
    have hself := notMem_of_nodup hnd
    have hrest : x ∉ v := (List.nodup_cons.1 (List.nodup_append.1 hnd).2.1).1
    refine ⟨fun hmem => ?_, fun hmem => ?_⟩
    · obtain ⟨y, hy, heq⟩ := List.mem_map.1 hmem
      exact hself (hone y (List.mem_append_left _ hy) heq ▸ hy)
    · obtain ⟨y, hy, heq⟩ := List.mem_map.1 hmem
      exact hrest (hone y (by simp [hy]) heq ▸ hy)

namespace Analysis

variable {a : Analysis} {settings : Settings} {code : FileCode}

/-- The name of an override stands once on the handle type exactly if it is set apart. -/
theorem Complete.count_overrideName (ha : a.Complete) (hclean : a.findings = [])
    (hcode : a.fileCode settings = .ok code) {p root : Profile} {below : List Profile} {methods : List MethodCode}
    (hp : p ∈ a.profiles) (hpart : a.codeOf p root below methods ∈ code.meanings) {n : Text}
    (hn : n ∈ p.decl.overridden) :
    ((a.codeOf p root below methods).members ++ (a.codeOf p root below methods).overrideNames).count
      (overrideName p.name n) = 1 ↔ p.decl.SetsApart p.parent? n := by
  obtain ⟨-, -, -, hoverrides⟩ := ha.profile_clean hclean hp
  obtain ⟨asc, us, -, hchain⟩ := ha.exists_chain_of_mem hp
  have hnodup : p.decl.overridden.Nodup := by
    rw [MeaningDecl.overridden, ← hoverrides, List.map_map]
    exact (hchain.consistent rfl).overrides_nodup
  have hmembers := ha.members_nodup hclean hcode hp hpart
  rw [List.count_append, ha.overrideNames_codeOf hclean hp root below methods]
  have hpositive : 0 < (p.decl.overridden.map (overrideName p.name)).count (overrideName p.name n) :=
    List.count_pos_iff.2 (List.mem_map_of_mem hn)
  have hsplit : ∀ k : Nat, k + (p.decl.overridden.map (overrideName p.name)).count (overrideName p.name n) = 1 ↔
      k = 0 ∧ (p.decl.overridden.map (overrideName p.name)).count (overrideName p.name n) = 1 := fun k => by omega
  have hcapital : ∀ n', overrideName p.name n' = overrideName p.name n ↔ n'.capitalize = n.capitalize := fun n' =>
    ⟨List.append_cancel_left, congrArg _⟩
  have hone := count_map_eq_one_iff (f := overrideName p.name) hnodup hn
  simp only [hcapital] at hone
  rw [hsplit, List.count_eq_zero, ha.overrideName_notMem_iff hcode hp hpart, hone, ha.fieldNames_eq hclean hp,
    ha.defined_eq hclean hp, MeaningDecl.SetsApart]
  exact and_comm

end Analysis

/-! ### Dispatch in generated code -/

namespace Code

/-- The file has a method that begins with a block, in front of its own body. -/
def FileCode.Opens (code : FileCode) (f : MethodCode) (b : Block) : Prop :=
  docLines f.decl.doc ++ line (methodHead f.meaning f.name f.decl.params f.decl.results ++ " \x7b") ::
    (indented b.lines ++ bodyLines f.decl.body ++ [line "\x7d", blank]) <:+: code.lines

theorem FileCode.opens {code : FileCode} {f : MethodCode} (h : f ∈ code.methods) : code.Opens f f.dispatch.block := by
  have hlines := MethodCode.lines_infix (.inl h)
  rw [MethodCode.lines, Dispatch.lines_eq] at hlines
  simpa [Opens] using hlines

/-- What running a block does is to run the code of the override that applies, if there is one, and to fall through if
there is none. -/
structure Block.Outcome.Does (o : Block.Outcome) (called : Option OverrideCall) : Prop where
  falls : o.falls = called.isNone
  calls : o.calls = called.toList.map fun c => (c.meaning, c.methodCall)
  code : Text.join [0x0a] o.statements = (called.map OverrideCall.text).getD []

theorem Dispatch.outcome_does (called : Option OverrideCall) : (outcome called).Does called := by
  cases called with
  | none => exact ⟨rfl, rfl, rfl⟩
  | some c => exact ⟨rfl, rfl, c.text_eq_join.symm⟩

end Code

namespace Analysis

variable {a : Analysis} {settings : Settings} {code : FileCode}

/-- A call of an override names the implementation in the meaning that overrides.  The name is that of one method or
component of the handle type exactly if it is set apart. -/
def Implements (a : Analysis) (code : FileCode) (c : OverrideCall) : Prop :=
  ∃ d ∈ a.file.meanings, d.name = c.meaning ∧ ∃ part ∈ code.meanings,
    (∀ x ∈ code.meanings, x.handle.meaning = c.meaning ↔ x = part) ∧
    (∃ g ∈ part.overrides, g.name = c.methodCall.method ∧ g.decl ∈ d.methods ∧ g.decl.isOverride ∧
      g.decl.name = c.method ∧ g.lines <:+: code.lines) ∧
    (∀ name ∈ part.members ++ part.overrideNames, part.PutsOnHandle name) ∧
    ((part.members ++ part.overrideNames).count c.methodCall.method = 1 ↔
      d.SetsApart (a.forest.parent? d.name) c.method)

/-- On an object with the given ancestry one meaning defines the method `n`.  The block that its method begins with
calls the override of the deepest meaning below it, or falls through if there is none, and the code that is run is what
`resolve` gives. -/
def DispatchesDeepest (a : Analysis) (code : FileCode) (asc : List Text) (n : Text) : Prop :=
  ∃ above owner below, asc = above ++ owner :: below ∧ (∀ m ∈ asc, a.file.declares false n m ↔ m = owner) ∧
    ∃ called, a.resolve owner n asc = .ok called ∧
      called.map (·.meaning) = (below.filter (a.file.declares true n)).getLast? ∧
      (∃ f ∈ code.methods, (∀ g ∈ code.methods, g.meaning = owner ∧ g.name = n ↔ g = f) ∧
        ∃ b, code.Opens f b ∧ (a.file.Worded → Block.read? b.lines = some b) ∧
          ∃ o, b.run code.downcast? asc [(receiverName, .handle owner)] = some o ∧ o.Does called) ∧
      ∀ c ∈ called, c.method = n ∧ a.Implements code c

theorem Complete.implements (ha : a.Complete) (hclean : a.findings = []) (hcode : a.fileCode settings = .ok code)
    {p : Profile} (hp : p ∈ a.profiles) {o : Override} (ho : o ∈ p.overrides) : a.Implements code o.call := by
  obtain ⟨root, below, methods, -, -, hpart⟩ := ha.exists_meaningCode hp
  have hpart := (ha.mem_meanings hcode).2 ⟨p, hp, hpart⟩
  obtain ⟨hdecl, -, -, hoverrides⟩ := ha.profile_clean hclean hp
  obtain ⟨-, -, -, -, hname, -, hlast⟩ := ha.override_spec hp ho
  have hmem : o.decl ∈ p.decl.methods.filter (·.isOverride) := hoverrides ▸ List.mem_map_of_mem ho
  have hmeaning : o.call.meaning = p.name := by simp [Override.call, hlast]
  have hmethod : o.call.methodCall.method = overrideName p.name o.decl.name := by
    rw [← hname, ← hmeaning]
    rfl
  have hoverridden : o.decl.name ∈ p.decl.overridden := List.mem_map_of_mem hmem
  obtain ⟨hmem, hkind⟩ := List.mem_filter.1 hmem
  refine ⟨p.decl, hdecl, hmeaning.symm, _, hpart, ?_, ⟨overrideCode p o, List.mem_map_of_mem ho, hmethod.symm, hmem,
    hkind, hname.symm, ?_⟩, fun name hname => ha.putsOnHandle hcode hp hpart hname, ?_⟩
  · rw [hmeaning]
    exact ha.part_iff hcode hpart
  · exact MethodCode.lines_infix (.inr (ha.overrideCode_mem hcode hp ho))
  · rw [hmethod, ha.count_overrideName hclean hcode hp hpart hoverridden, ha.parent?_eq hp, ← hname]
    rfl

theorem Chain.dispatchesDeepest {asc : List Text} {ps : List Profile} (h : a.Chain asc ps) (ha : a.Complete)
    (hclean : a.findings = []) {d : Text} (hasc : Lineage a.forest.parent? d asc)
    (hcode : a.fileCode settings = .ok code) {us vs : List Profile} {q : Profile} (hps : ps = us ++ q :: vs)
    {f : Method}
    (hf : f ∈ q.methods) : a.DispatchesDeepest code asc f.name := by
  have hnd := hasc.nodup
  have hmem : ∀ p ∈ ps, p ∈ a.profiles := fun p hp => h.mem_profiles hp
  have hq : q ∈ ps := by simp [hps]
  have hsplit : asc = us.map (·.name) ++ q.name :: vs.map (·.name) := by rw [← h.names_eq, hps]; simp
  obtain ⟨t, ht, hmethod⟩ := ha.exists_methodCode q f
  have hafter : after? q.name asc = some (vs.map (·.name)) := by
    rw [hsplit] at hnd ⊢
    exact after?_append_cons (notMem_of_nodup hnd) _
  refine ⟨us.map (·.name), q.name, vs.map (·.name), hsplit, ?_, t.resolve (vs.map (·.name)), ?_, ?_, ?_, ?_⟩
  · intro m hm
    rw [← h.names_eq] at hm
    obtain ⟨p, hp, rfl⟩ := List.mem_map.1 hm
    rw [ha.declares_method hclean (hmem p hp)]
    constructor
    · rintro ⟨g, hg, hname⟩
      rw [(h.method_unique hp hq hg hf hname).1]
    · intro hname
      obtain rfl := ha.profile_unique (hmem p hp) (hmem q hq) hname
      exact ⟨f, hf, rfl⟩
  · rw [resolve, hafter]
    simp only
    rw [ht]
    rfl
  · have hfilter : (vs.map (·.name)).filter (a.file.declares true f.name) =
        (vs.filter fun p => (p.overrideOf? f.name).isSome).map (·.name) := by
      rw [List.filter_map]
      congr 1
      apply List.filter_congr
      intro p hp
      exact ha.declares_override hclean (hmem p (by simp [hps, hp])) f.name
    rw [hfilter, List.getLast?_map]
    rcases h.resolve_cases ha hnd hps hf ht with ⟨hlast, hnone⟩ | ⟨p, hp, o, ho, -, hlast, hsome⟩
    · rw [hlast, hnone]
      rfl
    · obtain ⟨-, -, -, -, -, -, hpath⟩ := ha.override_spec (hmem p (by simp [hps, hp])) ho
      rw [hlast, hsome]
      simp [Override.call, hpath]
  · have hmade := (ha.mem_methods hcode).2 ⟨q, hmem q hq, f, hf, hmethod⟩
    refine ⟨_, hmade, fun g hg => ?_, _, FileCode.opens hmade,
      fun hworded => Block.read?_lines (ha.worded_block hclean hworded ht), _, ?_, Dispatch.outcome_does _⟩
    · obtain ⟨p, hp, f', hf', hg⟩ := (ha.mem_methods hcode).1 hg
      constructor
      · rintro ⟨hmeaning, hname⟩
        obtain ⟨t', -, hg'⟩ := ha.exists_methodCode p f'
        rw [hg] at hg'
        cases hg'
        obtain rfl := ha.profile_unique hp (hmem q hq) hmeaning
        obtain ⟨-, rfl⟩ := h.method_unique hq hq hf' hf hname
        exact Except.ok.inj (hg.symm.trans hmethod)
      · rintro rfl
        exact ⟨rfl, rfl⟩
    · exact Dispatch.run_ofTree (fun m sub hsub => ha.downcast?_eq hclean hcode hsub) hasc hsplit
        (ha.downward_overrideTree ht) (ha.fits_overrideTree (hmem q hq) hf ht) List.lookup_cons_self
  · intro c hc
    rcases h.resolve_cases ha hnd hps hf ht with ⟨-, hnone⟩ | ⟨p, hp, o, ho, hname, -, hsome⟩
    · rw [hnone] at hc
      cases hc
    · rw [hsome] at hc
      cases hc
      have hp' := hmem p (by simp [hps, hp])
      obtain ⟨-, -, -, -, hbase, -⟩ := ha.override_spec hp' ho
      exact ⟨hbase.trans hname, ha.implements hclean hcode hp' ho⟩

/-- Every method that is declared or overridden along an ancestry is dispatched. -/
theorem Complete.dispatchesDeepest (ha : a.Complete) (hclean : a.findings = []) (hcode : a.fileCode settings = .ok code)
    {d : MeaningDecl} (hd : d ∈ a.file.meanings) : ∃ asc, a.forest.ascending d.name = .ok asc ∧
      ∀ n, (∃ m ∈ asc, ∃ isOverride, a.file.declares isOverride n m) → a.DispatchesDeepest code asc n := by
  obtain ⟨asc, hasc⟩ := ha.sound.exists_lineage d.name
  obtain ⟨ps, hps⟩ := ha.exists_chain (ha.mem_names_of_decl hclean hd) hasc
  refine ⟨asc, ha.sound.ascending_eq hasc, ?_⟩
  rintro n ⟨m, hm, isOverride, hdeclares⟩
  rw [← hps.names_eq] at hm
  obtain ⟨p, hp, rfl⟩ := List.mem_map.1 hm
  -- the method is defined by `p`, or by an ancestor that has the base of the override
  obtain ⟨q, hq, f, hf, rfl⟩ : ∃ q ∈ ps, ∃ f ∈ q.methods, f.name = n := by
    cases isOverride with
    | false => exact ⟨p, hp, (ha.declares_method hclean (hps.mem_profiles hp) n).1 hdeclares⟩
    | true =>
      rw [ha.declares_override hclean (hps.mem_profiles hp), Option.isSome_iff_exists] at hdeclares
      obtain ⟨o, ho⟩ := hdeclares
      have hname : o.decl.name = n := by simpa using List.find?_some ho
      obtain ⟨us, vs, hsplit⟩ := List.append_of_mem hp
      obtain ⟨q, hq, hbase, hbasename⟩ := hps.exists_base hsplit (List.mem_of_find?_eq_some ho)
      exact ⟨q, by simp [hsplit, hq], o.base, hbase, hbasename.trans hname⟩
  obtain ⟨us, vs, hsplit⟩ := List.append_of_mem hq
  exact hps.dispatchesDeepest ha hclean hasc hcode hsplit hf

/-- Virtual dispatch.  Downcasts of the file narrow to the children of a meaning.  The block of a method calls the
override of the deepest meaning on the ancestry of an object, and falls through if no meaning below the one that defines
the method overrides it.  The override that is called is the only one of its name exactly if that is set apart. -/
theorem exists_dispatches_iff {file : DeclFile} (h : ofFile settings file = .ok a) (hclean : a.findings = []) :
    ∃ code, a.fileCode settings = .ok code ∧
      (∀ m sub, a.forest.parent? sub = some m → code.downcast? m (downcastName sub) = some sub) ∧
      (∀ m method target, code.downcast? m method = some target → code.HasDowncast m method target) ∧
      ∀ d ∈ file.meanings, ∃ asc, a.forest.ascending d.name = .ok asc ∧
        ∀ n, (∃ m ∈ asc, ∃ isOverride, file.declares isOverride n m) → a.DispatchesDeepest code asc n := by
  obtain ⟨ha, rfl⟩ := complete_of_ofFile h
  obtain ⟨code, hcode⟩ := ha.exists_fileCode settings
  exact ⟨code, hcode, fun m sub hsub => ha.downcast?_eq hclean hcode hsub,
    fun m method target hdown => ha.hasDowncast hcode hdown, fun d hd => ha.dispatchesDeepest hclean hcode hd⟩

/-- Three meanings, of which the last overrides the method of the first. -/
def shapes : DeclFile :=
  let meaning (name parent : Text) (methods : List MethodDecl) : MeaningDecl :=
    { position := ⟨1, 1⟩, name, parent, parentPosition := ⟨1, 1⟩, doc := [], fields := [], constructors := [], methods }
  let area (isOverride : Bool) : MethodDecl :=
    { position := ⟨1, 1⟩, name := "Area", isOverride, doc := [], typeParams := [], params := [], results := []
      body := [] }
  { name := "shapes.mt"
    meanings := [meaning "Shape" [] [area false], meaning "Round" "Shape" [], meaning "Disc" "Round" [area true]] }

theorem dispatches_shapes : ∃ a code asc, @ofFile .english {} shapes = .ok a ∧ a.findings = [] ∧
    a.fileCode {} = .ok code ∧ a.forest.ascending "Disc" = .ok asc ∧ shapes.Worded ∧
    (∀ d ∈ shapes.meanings, d.name = "Disc" → d.SetsApart (some "Round") "Area") ∧
    a.DispatchesDeepest code asc "Area" := by
  obtain ⟨a, ha, hclean⟩ := exists_clean (by decide +kernel : @cleanInOrder .english {} shapes)
  obtain ⟨code, hcode, -, -, hdispatch⟩ := exists_dispatches_iff ha hclean
  obtain ⟨d, hd, hname⟩ : ∃ d ∈ shapes.meanings, d.name = "Disc" := by decide +kernel
  obtain ⟨asc, hasc, h⟩ := hdispatch d hd
  rw [hname] at hasc
  have hmem : ("Disc" : Text) ∈ asc := (Forest.lineage_of_ascending hasc).self_mem
  exact ⟨a, code, asc, ha, hclean, hcode, hasc, by decide +kernel, by decide +kernel,
    h "Area" ⟨_, hmem, true, by decide +kernel⟩⟩

/-- On an object of the second meaning the block of the method `area` calls a name that two methods have. -/
theorem dispatch_ambiguous_twins : ∃ a code part f b o m c, @ofFile .english {} twins = .ok a ∧ a.findings = [] ∧
    a.fileCode {} = .ok code ∧ f ∈ code.methods ∧ f.meaning = "A" ∧ f.name = "area" ∧ code.Opens f b ∧
    b.run code.downcast? [Text.ofString "A", Text.ofString "B"] [(receiverName, .handle "A")] = some o ∧
    o.calls = [(m, c)] ∧ part ∈ code.meanings ∧ part.handle.meaning = m ∧
      1 < (part.members ++ part.overrideNames).count c.method := by
  obtain ⟨a, hfile, hclean⟩ := exists_clean (by decide +kernel : @cleanInOrder .english {} twins)
  obtain ⟨ha, hdecls⟩ := complete_of_ofFile hfile
  obtain ⟨code, hcode⟩ := ha.exists_fileCode {}
  obtain ⟨d, hd, hname⟩ : ∃ d ∈ twins.meanings, d.name = "B" := by decide +kernel
  obtain ⟨asc, hasc, h⟩ := ha.dispatchesDeepest hclean hcode (hdecls ▸ hd)
  obtain rfl : asc = [Text.ofString "A", Text.ofString "B"] := by
    rw [hname, forest_of_ofFile hfile] at hasc
    exact Except.ok.inj (hasc.symm.trans (by decide +kernel))
  obtain ⟨above, owner, below, hsplit, howner, called, -, hlast, ⟨f, hf, hunique, b, hopens, -, o, hrun, hdoes⟩, hc⟩ :=
    h "area" ⟨"B", by simp, true, by rw [hdecls]; decide +kernel⟩
  obtain rfl : owner = "A" := ((howner "A" (by simp)).1 (by rw [hdecls]; decide +kernel)).symm
  obtain rfl : below = [Text.ofString "B"] := by
    rcases above with _ | ⟨k, _ | ⟨j, above⟩⟩
    · simpa using hsplit.symm
    · exact absurd (List.cons.inj (List.cons.inj hsplit).2).1 (by decide)
    · simp at hsplit
  obtain ⟨c, rfl⟩ : ∃ c, called = some c := by
    rw [hdecls] at hlast
    cases called with
    | some c => exact ⟨c, rfl⟩
    | none => exact absurd hlast (by decide +kernel)
  obtain ⟨hmethod, d', hd', hname', part, hpart, hmeaning, ⟨g, hg, hgname, -⟩, -, hiff⟩ := hc c rfl
  obtain ⟨hfmeaning, hfname⟩ := (hunique f hf).2 rfl
  refine ⟨a, code, part, f, b, o, c.meaning, c.methodCall, hfile, hclean, hcode, hf, hfmeaning, hfname, hopens, hrun,
    by rw [hdoes.calls]; rfl, hpart, (hmeaning part hpart).2 rfl, ?_⟩
  have hmeant : c.meaning = "B" := by
    rw [hdecls] at hlast
    exact Option.some.inj (hlast.trans (by decide +kernel))
  have hshared : ∀ d ∈ twins.meanings, d.name = "B" →
      ¬ ∀ n ∈ d.overridden, n.capitalize = Text.capitalize "area" → n = "area" := by decide +kernel
  have hnot : (part.members ++ part.overrideNames).count c.methodCall.method ≠ 1 := fun hone =>
    hshared d' (hdecls ▸ hd') (hname'.trans hmeant) (hmethod ▸ (hiff.1 hone).1)
  have hmem : c.methodCall.method ∈ part.members ++ part.overrideNames :=
    List.mem_append_right _ (hgname ▸ List.mem_map_of_mem hg)
  have := List.count_pos_iff.2 hmem
  omega

end Analysis

end MeaningForest

import MeaningForest.Proofs.Cycles
import MeaningForest.Proofs.OverrideNames

/-!
# Members along a chain

The members of a handle type follow from the declarations alone (`MeaningDecl.members`), and the table of a profile
holds just these (`Analysis.Complete.members_eq`).  Their names are distinct.  A meaning may have a name of an ancestor
again only for accessors of both, since every ancestor has taken its names before (`Analysis.members_distinct`).
-/

namespace MeaningForest

open Code

variable {lang : Language}

/-- An element on a lineage is passed on the way up. -/
theorem Lineage.mem_of_ascent {α : Type} {parent : α → Option α} {m a : α} {l : List α} (h : Lineage parent m l)
    {k : Nat}
    (hk : ascent parent k m = some a) : a ∈ l := by
  induction k generalizing m l with
  | zero =>
    obtain rfl := Option.some.inj hk
    exact h.self_mem
  | succ k ih =>
    rw [ascent] at hk
    cases h with
    | root hm =>
      rw [hm] at hk
      cases hk
    | child hm hl =>
      rw [hm] at hk
      exact List.mem_append_left _ (ih hl hk)

/-! ### The members that declarations ask for -/

namespace MeaningDecl

/-- The names that the handle type of a meaning has anyway: those of its kind, and a downcast for each direct
submeaning. -/
def generatedNames (decls : List MeaningDecl) (d : MeaningDecl) : List Text :=
  (if d.parent = [] then ["root", "variant", "RuntimeInfo", "runtimeInfo"].map Text.ofString else [d.parent]) ++
    (decls.filter fun s => s.parent ≠ [] ∧ s.parent = d.name).map fun s => downcastName s.name

/-- The members of the handle type of a meaning. -/
def members (decls : List MeaningDecl) (d : MeaningDecl) : List Member :=
  (d.generatedNames decls).map (⟨d.name, ·, .generated⟩) ++
    d.fields.flatMap (fun f => [⟨d.name, f.name, .accessor⟩, ⟨d.name, setterName f.name, .accessor⟩]) ++
    (d.methods.filter (!·.isOverride)).map fun f => ⟨d.name, f.name, .method⟩

/-- A meaning is passed on the way up from another one. -/
def IsAbove (decls : List MeaningDecl) (d' d : MeaningDecl) : Prop :=
  ∃ k, ascent (Forest.declaredParent decls) (k + 1) d.name = some d'.name

end MeaningDecl

namespace Forest

variable {arena : Text} {decls : List MeaningDecl}

theorem Proper.parent?_eq (h : Proper arena decls) : (declared decls).parent? = declaredParent decls := by
  funext m
  refine Option.ext fun p => ⟨fun hp => (parent?_declared.1 hp).1, fun hp => parent?_declared.2 ⟨hp, ?_⟩⟩
  obtain ⟨d, hd, rfl⟩ := List.mem_map.1 (mem_names_of_declaredParent hp)
  rw [declaredParent_of_mem h.nodup hd] at hp
  split at hp
  · cases hp
  · rename_i hne
    obtain rfl := Option.some.inj hp
    exact h.parents d hd hne

theorem Proper.submeanings_eq (h : Proper arena decls) (m : Text) :
    (declared decls).submeanings m = (decls.filter fun s => s.parent ≠ [] ∧ s.parent = m).map (·.name) := by
  rw [submeanings, declared, List.filter_map, List.map_map]
  have hparent : ∀ s ∈ decls, ((attach decls s).parent == some m) = decide (s.parent ≠ [] ∧ s.parent = m) := by
    intro s hs
    by_cases hne : s.parent = []
    · simp [attach, hne]
    · have hmem : decls.any (·.name == s.parent) = true := by simpa using h.parents s hs hne
      rw [attach, if_pos ⟨hne, hmem⟩, Option.some_beq_some]
      simp [hne, Bool.beq_eq_decide_eq]
  rw [List.filter_congr (q := fun s => decide (s.parent ≠ [] ∧ s.parent = m)) hparent]
  rfl

end Forest

namespace Analysis

variable {a : Analysis} {settings : Settings} {file : DeclFile}

theorem Complete.forest_eq_declared (ha : a.Complete) (hclean : a.findings = []) :
    a.forest = Forest.declared a.file.meanings := by
  rw [ha.forest_eq, (ha.proper hclean).ofDecls_eq]

/-- The reserved names of a profile are those that its declaration gives. -/
theorem Complete.reservedNames_eq (ha : a.Complete) (hclean : a.findings = []) {p : Profile} (hp : p ∈ a.profiles) :
    p.reservedNames = p.decl.generatedNames a.file.meanings := by
  have hproper := ha.proper hclean
  have hparent := Forest.declaredParent_of_mem hproper.nodup (ha.profile_clean hclean hp).1
  rw [Profile.reservedNames, ha.parent?_eq hp, ha.submeanings_eq hp, ha.forest_eq_declared hclean, hproper.parent?_eq,
    hproper.submeanings_eq, List.map_map, Profile.name, hparent, MeaningDecl.generatedNames]
  by_cases hd : p.decl.parent = []
  · rw [if_pos hd, if_pos hd]
    rfl
  · rw [if_neg hd, if_neg hd]
    rfl

theorem Complete.taken_eq (ha : a.Complete) (hclean : a.findings = []) {p : Profile} (hp : p ∈ a.profiles) :
    p.taken = p.reservedNames ++ p.fields.flatMap Profile.accessorNames ++ p.methods.map (·.name) := by
  obtain ⟨n, -, above, asc, subs, rfl⟩ := ha.exists_ofDecl hp
  rw [Profile.ofDecl_reservedNames]
  exact Profile.ofDecl_tallies (ha.findings_profile hclean hp)

/-- Without findings the table of a meaning holds the members that the declarations ask for, in their order. -/
theorem Complete.members_eq (ha : a.Complete) (hclean : a.findings = []) {p : Profile} (hp : p ∈ a.profiles) :
    p.members = p.decl.members a.file.meanings := by
  obtain ⟨asc, above, generated, reserved, fields, ctor, methods, entries, -, h⟩ := ha.exists_breakdown hp
  obtain ⟨-, hfields, hmethods, -⟩ := ha.profile_clean hclean hp
  have haccessors : (Profile.accessorsOf p.name p.fields).map (·.name) = p.fields.flatMap Profile.accessorNames := by
    rw [Profile.accessorsOf, List.map_flatMap]
    rfl
  have hdefined : (Profile.methodMembers p.name p.methods).map (·.name) = p.methods.map (·.name) := by
    simp [Profile.methodMembers, Function.comp_def]
  -- what is neither accessor nor method has the reserved names
  have hnames : generated.map (·.name) = p.decl.generatedNames a.file.meanings := by
    have htaken := ha.taken_eq hclean hp
    rw [Profile.taken, h.members_eq, List.map_append, List.map_append, haccessors, hdefined] at htaken
    rw [← ha.reservedNames_eq hclean hp]
    exact List.append_cancel_right (List.append_cancel_right htaken)
  have hgenerated : generated = (p.decl.generatedNames a.file.meanings).map (⟨p.decl.name, ·, .generated⟩) := by
    rw [← hnames, List.map_map]
    refine ((List.map_id _).symm.trans (List.map_congr_left fun e he => ?_))
    obtain ⟨howner, hkind⟩ := h.own_generated e he
    cases e
    cases howner
    cases hkind
    rfl
  have hmethodMembers : Profile.methodMembers p.name p.methods =
      (p.decl.methods.filter (!·.isOverride)).map fun f => ⟨p.decl.name, f.name, .method⟩ := by
    rw [← hmethods, List.map_map]
    rfl
  rw [h.members_eq, MeaningDecl.members, hgenerated, hmethodMembers, hfields, Profile.accessorsOf, List.flatMap_map]
  rfl

/-- Only accessors of a meaning have names that an ancestor has as well, and only those of its accessors. -/
theorem Chain.accessors_of_eq {asc : List Text} {us : List Profile} {p q : Profile} (h : a.Chain asc (us ++ [p]))
    (hq : q ∈ us) {e x : Member} (he : e ∈ p.members) (hx : x ∈ q.members) (heq : e.name = x.name) :
    e.kind = .accessor ∧ x.kind = .accessor := by
  obtain ⟨n, -, hmade⟩ := h.made us p [] rfl
  have hexclusive : Profile.Exclusive us p := hmade ▸ Profile.ofDecl_exclusive _ _ _
  have hfree := hexclusive.free e he x (List.mem_flatMap.2 ⟨q, hq, hx⟩)
  simp only [Member.blocks, heq, beq_self_eq_true, Bool.true_and, Bool.or_eq_false_iff, bne_eq_false_iff_eq] at hfree
  exact ⟨hfree.2, hfree.1.2⟩

/-- Strict ancestors are those that come before a meaning in its chain. -/
theorem Complete.mem_above (ha : a.Complete) (hclean : a.findings = []) {p : Profile} {us : List Profile}
    {asc : List Text}
    (hasc : Lineage a.forest.parent? p.name asc) (h : a.Chain asc (us ++ [p])) {d : MeaningDecl}
    (hd : d ∈ a.file.meanings) (habove : d.IsAbove a.file.meanings p.decl) : ∃ q ∈ us, q.decl = d := by
  obtain ⟨k, hk⟩ := habove
  rw [← (ha.proper hclean).parent?_eq, ← ha.forest_eq_declared hclean] at hk
  have hne : d.name ≠ p.name := by
    intro he
    rw [he] at hk
    exact ha.sound.acyclic p.name ⟨k + 1, k.succ_pos, hk⟩
  have hmem := hasc.mem_of_ascent hk
  rw [← h.names_eq, List.map_append, List.mem_append] at hmem
  rcases hmem with hmem | hmem
  · obtain ⟨q, hq, hname⟩ := List.mem_map.1 hmem
    have hprofile := h.mem_profiles (List.mem_append_left [p] hq)
    exact ⟨q, hq, ha.decl_unique hclean (ha.profile_clean hclean hprofile).1 hd hname⟩
  · exact absurd (List.mem_singleton.1 hmem) hne

/-- Names on handle types do not clash.  Without findings the members of every meaning have distinct names, and a member
that has the name of one of a strict ancestor is an accessor like that.  The names that the code of a meaning puts on
its handle type are among them, apart from overrides. -/
theorem members_distinct (h : ofFile settings file = .ok a) (hclean : a.findings = []) :
    ∃ code, a.fileCode settings = .ok code ∧ ∀ d ∈ file.meanings,
      (∃ p ∈ a.profiles, p.decl = d ∧ p.members = d.members file.meanings) ∧
      (∃ part ∈ code.meanings, part.handle.meaning = d.name ∧
        part.members.Sublist ((d.members file.meanings).map (·.name))) ∧
      ((d.members file.meanings).map (·.name)).Nodup ∧
      ∀ d' ∈ file.meanings, d'.IsAbove file.meanings d → ∀ e ∈ d.members file.meanings,
        ∀ x ∈ d'.members file.meanings, e.name = x.name → e.kind = .accessor ∧ x.kind = .accessor := by
  obtain ⟨ha, rfl⟩ := complete_of_ofFile h
  obtain ⟨code, hcode⟩ := ha.exists_fileCode settings
  refine ⟨code, hcode, fun d hd => ?_⟩
  obtain ⟨p, hp, rfl, -, root, below, methods, -, hpart⟩ := ha.exists_codeOf hclean hcode hd
  have hmembers := ha.members_eq hclean hp
  have hnames : (p.decl.members a.file.meanings).map (·.name) = p.taken := by rw [← hmembers, Profile.taken]
  refine ⟨⟨p, hp, rfl, hmembers⟩, ⟨_, hpart, rfl, ?_⟩, ?_, fun d' hd' habove e he x hx => ?_⟩
  · rw [hnames, ha.taken_eq hclean hp]
    exact ha.members_sublist hcode hp hpart
  · obtain ⟨n, -, above, asc, subs, rfl⟩ := ha.exists_ofDecl hp
    rw [hnames]
    exact (Profile.ofDecl_distinct n.decl asc subs).nodup
  · obtain ⟨asc, us, hasc, hchain⟩ := ha.exists_chain_of_mem hp
    obtain ⟨q, hq, rfl⟩ := ha.mem_above hclean hasc hchain hd' habove
    rw [← hmembers] at he
    rw [← ha.members_eq hclean (hchain.mem_profiles (List.mem_append_left [p] hq))] at hx
    exact hchain.accessors_of_eq hq he hx

/-- Three meanings below each other, each with methods of its own; the first and the last have a field of one name. -/
def shades : DeclFile :=
  let field (name : Text) : FieldDecl := { position := ⟨1, 1⟩, name, isRef := false, type := "int", default := [] }
  let method (name : Text) (isOverride : Bool) : MethodDecl :=
    { position := ⟨1, 1⟩, name, isOverride, doc := [], typeParams := [], params := [], results := [], body := [] }
  let meaning (name parent : Text) (fields : List Text) (methods : List MethodDecl) : MeaningDecl :=
    { position := ⟨1, 1⟩, name, parent, parentPosition := ⟨1, 1⟩, doc := [], fields := fields.map field
      constructors := [], methods }
  { name := "shades.mt"
    meanings := [meaning "Lamp" [] ["tone", "power"] [method "Light" false],
      meaning "Dimmer" "Lamp" ["level"] [method "Fade" false, method "Light" true],
      meaning "Shade" "Dimmer" ["tone"] [method "Fold" false]] }

theorem members_distinct_shades : ∃ a, @ofFile .english {} shades = .ok a ∧ a.findings = [] ∧
    ∃ lamp ∈ shades.meanings, ∃ shade ∈ shades.meanings, lamp.IsAbove shades.meanings shade ∧
      (shade.members shades.meanings).map (·.name) = ["Dimmer", "tone", "setTone", "Fold"].map Text.ofString ∧
      ((shade.members shades.meanings).map (·.name)).Nodup ∧
      ∃ e ∈ shade.members shades.meanings, ∃ x ∈ lamp.members shades.meanings,
        e.name = x.name ∧ e.kind = .accessor ∧ x.kind = .accessor := by
  obtain ⟨a, ha, hclean⟩ := exists_clean (by decide +kernel : @cleanInOrder .english {} shades)
  obtain ⟨code, -, hmembers⟩ := members_distinct ha hclean
  obtain ⟨lamp, hlamp, shade, hshade, habove, hnames, e, he, x, hx, heq⟩ :
      ∃ lamp ∈ shades.meanings, ∃ shade ∈ shades.meanings,
        ascent (Forest.declaredParent shades.meanings) 2 shade.name = some lamp.name ∧
        (shade.members shades.meanings).map (·.name) = ["Dimmer", "tone", "setTone", "Fold"].map Text.ofString ∧
        ∃ e ∈ shade.members shades.meanings, ∃ x ∈ lamp.members shades.meanings, e.name = x.name := by
    decide +kernel
  obtain ⟨-, -, hnodup, haccessors⟩ := hmembers shade hshade
  exact ⟨a, ha, hclean, lamp, hlamp, shade, hshade, ⟨1, habove⟩, hnames, hnodup, e, he, x, hx, heq,
    haccessors lamp hlamp ⟨1, habove⟩ e he x hx heq⟩

end Analysis

end MeaningForest

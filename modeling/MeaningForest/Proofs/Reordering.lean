import MeaningForest.Proofs.Findings

/-!
# The order of declarations

The analysis goes through the declarations of a file one after the other, and much of what it does depends on those
that came before.  What it finds does not: a file has no findings exactly if its declarations in another order have
none, and then both analyses agree on every meaning (`exists_agreeOn`).

* Profiles that agree but for the order of submeanings and members are alike (`Profile.Alike`).  Every step of making
  a profile keeps this, once the reserved names are taken without a finding (`Profile.alike_ofDecl`).
* Along every ancestry the profiles of both analyses are alike (`Chain.alike`).
* So both have the same overrides, and the trees of overrides hold the same code (`Matched.exists_resolve`).
-/

namespace MeaningForest

variable {lang : Language}

namespace Profile

/-! ### Alike profiles -/

/-- Profiles that agree but for the order of submeanings and members and for what is found. -/
structure Alike (p q : Profile) : Prop where
  decl : q.decl = p.decl
  ascending : q.ascending = p.ascending
  submeanings : q.submeanings.Perm p.submeanings
  ctor : q.ctor = p.ctor
  members : ∀ e, e ∈ q.members ↔ e ∈ p.members
  fields : q.fields = p.fields
  methods : q.methods = p.methods
  overrides : q.overrides = p.overrides
  clean : q.findings = [] ↔ p.findings = []

variable {above above' : List Profile} (habove : List.Forall₂ Alike above above')

include habove in
theorem mem_members_iff (e : Member) : e ∈ above'.flatMap (·.members) ↔ e ∈ above.flatMap (·.members) := by
  induction habove with
  | nil => rfl
  | cons h _ ih => simp only [List.flatMap_cons, List.mem_append, h.members, ih]

include habove in
theorem inheritedMethod?_congr (n : Text) : inheritedMethod? above' n = inheritedMethod? above n := by
  have hmethods : above'.map (·.methods) = above.map (·.methods) := by
    induction habove with
    | nil => rfl
    | cons h _ ih => rw [List.map_cons, List.map_cons, h.methods, ih]
  have hmap : ∀ ps : List Profile, inheritedMethod? ps n =
      (ps.map (·.methods)).reverse.findSome? fun methods => methods.find? (·.name == n) := by
    intro ps
    rw [← List.map_reverse, List.findSome?_map]
    rfl
  rw [hmap, hmap, hmethods]

namespace Alike

variable {p q : Profile}

theorem name (h : Alike p q) : q.name = p.name := by rw [Profile.name, Profile.name, h.decl]

theorem report (h : Alike p q) (position position' : Position) (problem problem' : AnalysisProblem) :
    Alike (p.report position problem) (q.report position' problem') :=
  { h with clean := by simp [Profile.report] }

include habove in
theorem conflict?_eq_none_iff (h : Alike p q) (kind : MemberKind) (names : List Text) :
    q.conflict? above' kind names = none ↔ p.conflict? above kind names = none := by
  simp only [conflict?_eq_none, List.mem_append, h.members, h.name, mem_members_iff habove]

include habove in
theorem occupy (h : Alike p q) (position : Position) (kind : MemberKind) (names : List Text)
    {next : Profile → Profile} (hnext : ∀ p q, Alike p q → Alike (next p) (next q)) :
    Alike (p.occupy above position kind names next) (q.occupy above' position kind names next) := by
  have hiff := h.conflict?_eq_none_iff habove kind names
  rw [Profile.occupy, Profile.occupy]
  cases hp : p.conflict? above kind names with
  | none =>
    rw [hiff.2 hp]
    refine hnext _ _ { h with members := fun e => ?_ }
    simp only [List.mem_append, h.members, h.name]
  | some c =>
    cases hq : q.conflict? above' kind names with
    | none =>
      rw [hiff.1 hq] at hp
      cases hp
    | some c' => exact h.report _ _ _ _

include habove in
theorem addField (h : Alike p q) (d : FieldDecl) : Alike (p.addField above d) (q.addField above' d) := by
  rw [Profile.addField, Profile.addField, h.fields]
  split
  · exact h.report _ _ _ _
  · exact h.occupy habove _ _ _ fun p q h => { h with fields := by rw [h.fields] }

theorem setParams (h : Alike p q) : Alike p.setParams q.setParams := by
  simp only [Profile.setParams, h.ctor]
  split
  · exact h.report _ _ _ _
  · split
    · exact h.report _ _ _ _
    · exact { h with ctor := rfl }

theorem setTypeParams (h : Alike p q) : Alike p.setTypeParams q.setTypeParams := by
  simp only [Profile.setTypeParams, h.ctor]
  split
  · exact h.report _ _ _ _
  · exact { h with ctor := rfl }

include habove in
theorem checkSuper (h : Alike p q) : Alike (p.checkSuper above) (q.checkSuper above') := by
  have hlast : above'.getLast?.map (·.ctor) = above.getLast?.map (·.ctor) := by
    rw [← List.getLast?_map, ← List.getLast?_map]
    congr 1
    induction habove with
    | nil => rfl
    | cons h _ ih => rw [List.map_cons, List.map_cons, h.ctor, ih]
  rw [Profile.checkSuper, Profile.checkSuper, h.ctor]
  cases hs : p.ctor.decl.superArgs with
  | none =>
    cases hp : above.getLast? with
    | none =>
      rw [hp, Option.map_none, Option.map_eq_none_iff] at hlast
      rw [hlast]
      exact h
    | some parent =>
      rw [hp, Option.map_some, Option.map_eq_some_iff] at hlast
      obtain ⟨parent', hp', hctor⟩ := hlast
      simp only [hp', hctor]
      split
      · exact h
      · exact h.report _ _ _ _
  | some args =>
    cases hp : above.getLast? with
    | none =>
      rw [hp, Option.map_none, Option.map_eq_none_iff] at hlast
      rw [hlast]
      exact h.report _ _ _ _
    | some parent =>
      rw [hp, Option.map_some, Option.map_eq_some_iff] at hlast
      obtain ⟨parent', hp', -⟩ := hlast
      rw [hp']
      exact h

include habove in
theorem setConstructor (h : Alike p q) : Alike (p.setConstructor above) (q.setConstructor above') := by
  rw [Profile.setConstructor, Profile.setConstructor, h.decl]
  refine checkSuper habove (setTypeParams (setParams ?_))
  exact List.foldl_rel h fun _ _ _ _ h => h.report _ _ _ _

include habove in
theorem defineMethod (h : Alike p q) (f : Method) : Alike (p.defineMethod above f) (q.defineMethod above' f) := by
  simp only [Profile.defineMethod, inheritedMethod?_congr habove, h.methods]
  split
  · exact h.report _ _ _ _
  · split
    · exact h.report _ _ _ _
    · exact h.occupy habove _ _ _ fun p q h => { h with methods := by rw [h.methods] }

include habove in
theorem overrideMethod (h : Alike p q) (f : Method) : Alike (p.overrideMethod above f) (q.overrideMethod above' f) := by
  simp only [Profile.overrideMethod, inheritedMethod?_congr habove, h.overrides, h.ascending]
  split
  · exact h.report _ _ _ _
  · split
    · exact h.report _ _ _ _
    · split
      · exact { h with ascending := rfl, overrides := rfl }
      · exact h.report _ _ _ _

include habove in
theorem addMethod (h : Alike p q) (d : MethodDecl) : Alike (p.addMethod above d) (q.addMethod above' d) := by
  rw [Profile.addMethod, Profile.addMethod, h.name]
  split
  · exact h.report _ _ _ _
  · split
    · exact h.overrideMethod habove _
    · exact h.defineMethod habove _

end Alike

/-- Names can be reserved exactly if they are distinct and each is free. -/
theorem foldl_reserve_iff (above : List Profile) (names : List Text) (p : Profile) :
    (names.foldl (reserve above) p).findings = [] ↔
      p.findings = [] ∧ names.Nodup ∧ ∀ name ∈ names, p.conflict? above .generated [name] = none := by
  induction names generalizing p with
  | nil => simp
  | cons name names ih =>
    rw [List.foldl_cons, ih]
    cases hc : p.conflict? above .generated [name] with
    | some c =>
      have hreport : (p.reserve above name).findings ≠ [] := by simp [reserve, occupy, hc, report]
      simp [hreport, hc]
    | none =>
      have hreserve : p.reserve above name = { p with members := p.members ++ p.entries .generated [name] } := by
        simp [reserve, occupy, hc, entries]
      -- a name that was just reserved blocks itself and no other
      have hnext : ∀ x, conflict? above { p with members := p.members ++ p.entries .generated [name] } .generated [x] =
          none ↔ x ≠ name ∧ p.conflict? above .generated [x] = none := by
        intro x
        simp only [conflict?_eq_none, List.mem_singleton, forall_eq, List.mem_append, entries, List.map_cons,
          List.map_nil, Profile.name]
        constructor
        · intro h
          refine ⟨?_, fun e he => h e (he.imp_right .inl)⟩
          rintro rfl
          have := h _ (.inr (.inr rfl))
          simp [Member.blocks] at this
        · rintro ⟨hne, h⟩ e (he | he | rfl)
          · exact h e (.inl he)
          · exact h e (.inr he)
          · simp [Member.blocks, Ne.symm hne]
      rw [hreserve]
      simp only [hnext, List.nodup_cons, List.mem_cons, forall_eq_or_imp, hc, true_and]
      grind

include habove in
theorem alike_reserved (d : MeaningDecl) (asc : List Text) {subs subs' : List Text} (hsubs : subs'.Perm subs)
    (hclean : (reserved above d asc subs).findings = []) :
    Alike (reserved above d asc subs) (reserved above' d asc subs') := by
  have hstart : Alike (start d asc subs) (start d asc subs') :=
    ⟨rfl, rfl, hsubs, rfl, fun _ => Iff.rfl, rfl, rfl, rfl, Iff.rfl⟩
  have hnames : (start d asc subs').reservedNames.Perm (start d asc subs).reservedNames :=
    (hsubs.map downcastName).append_left _
  obtain ⟨-, hnodup, hfree⟩ := (foldl_reserve_iff above _ _).1 hclean
  have hclean' : (reserved above' d asc subs').findings = [] := by
    refine (foldl_reserve_iff above' _ _).2 ⟨rfl, hnames.nodup_iff.2 hnodup, fun name hname => ?_⟩
    exact (hstart.conflict?_eq_none_iff habove _ _).2 (hfree name (hnames.mem_iff.1 hname))
  obtain ⟨ms, fs, hres, hall⟩ := foldl_reserve_frame above (start d asc subs).reservedNames (start d asc subs)
  obtain ⟨ms', fs', hres', hall'⟩ := foldl_reserve_frame above' (start d asc subs').reservedNames (start d asc subs')
  rw [reserved, hres] at hclean ⊢
  rw [reserved, hres'] at hclean' ⊢
  refine { hstart with members := fun e => ?_, clean := by rw [hclean, hclean'] }
  rw [hall (List.append_eq_nil_iff.1 hclean).2, hall' (List.append_eq_nil_iff.1 hclean').2]
  simp only [entries, List.mem_append, List.mem_map, hnames.mem_iff]
  rfl

include habove in
/-- A profile without findings stays the same when its submeanings are taken in another order. -/
theorem alike_ofDecl (d : MeaningDecl) (asc : List Text) {subs subs' : List Text} (hsubs : subs'.Perm subs)
    (hclean : (ofDecl above d asc subs).findings = []) :
    Alike (ofDecl above d asc subs) (ofDecl above' d asc subs') := by
  have hreserved := alike_reserved habove d asc hsubs (reserved_clean hclean)
  rw [ofDecl_eq, ofDecl_eq]
  refine List.foldl_rel (.setConstructor habove ?_) fun f _ _ _ h => h.addMethod habove f
  exact List.foldl_rel hreserved fun f _ _ _ h => h.addField habove f

end Profile

namespace Analysis

variable {a a' : Analysis}

/-! ### Analyses of forests with the same nodes -/

/-- Along one ancestry the profiles of both analyses are alike. -/
theorem Chain.alike (ha : a.Complete) (hclean : a.findings = []) (hnodes : a'.forest.nodes.Perm a.forest.nodes)
    {asc : List Text} {ps ps' : List Profile} (h : a.Chain asc ps) (h' : a'.Chain asc ps') :
    List.Forall₂ Profile.Alike ps ps' := by
  have hnode : ∀ n ∈ a.forest.nodes, ∀ n' ∈ a'.forest.nodes, n.name = n'.name → n = n' := fun n hn n' hn' =>
    List.inj_on_of_nodup_map ha.sound.nodup hn (hnodes.mem_iff.1 hn')
  refine h.rel h' hnode fun us us' n halike _ _ hmem => ?_
  have hpclean := ha.findings_profile hclean (h.mem_profiles hmem)
  exact Profile.alike_ofDecl halike n.decl _ (Forest.submeanings_perm hnodes n.name) hpclean

/-- What ties two complete analyses of which one has no findings: they have the same nodes. -/
structure Matched [Language] (a a' : Analysis) : Prop where
  complete : a.Complete
  complete' : a'.Complete
  clean : a.findings = []
  nodes : a'.forest.nodes.Perm a.forest.nodes

namespace Matched

theorem parent?_eq (h : Matched a a') : a'.forest.parent? = a.forest.parent? :=
  Forest.parent?_perm h.complete.sound.nodup h.nodes

/-- A meaning has alike profiles in both analyses. -/
theorem alike (h : Matched a a') {p p' : Profile} (hp : p ∈ a.profiles) (hp' : p' ∈ a'.profiles)
    (hname : p.name = p'.name) : p.Alike p' := by
  obtain ⟨asc, us, hasc, hchain⟩ := h.complete.exists_chain_of_mem hp
  obtain ⟨asc', us', hasc', hchain'⟩ := h.complete'.exists_chain_of_mem hp'
  rw [h.parent?_eq, ← hname] at hasc'
  obtain rfl := hasc.unique hasc'
  have halike := hchain.alike h.complete h.clean h.nodes hchain'
  have hlast := List.rel_reverse halike
  rw [List.reverse_append, List.reverse_append] at hlast
  cases hlast with
  | cons hpp _ => exact hpp

theorem exists_alike (h : Matched a a') {p : Profile} (hp : p ∈ a.profiles) : ∃ p' ∈ a'.profiles, p.Alike p' := by
  have hname := (Forest.names_perm h.nodes).mem_iff.2 (h.complete.name_mem hp)
  obtain ⟨p', hp', he⟩ := List.mem_map.1 (h.complete'.perm.mem_iff.2 hname)
  exact ⟨p', hp', h.alike hp hp' he.symm⟩

theorem exists_alike' (h : Matched a a') {p' : Profile} (hp' : p' ∈ a'.profiles) : ∃ p ∈ a.profiles, p.Alike p' := by
  have hname := (Forest.names_perm h.nodes).mem_iff.1 (h.complete'.name_mem hp')
  obtain ⟨p, hp, he⟩ := List.mem_map.1 (h.complete.perm.mem_iff.2 hname)
  exact ⟨p, hp, h.alike hp hp' he⟩

/-! ### Overrides -/

theorem mem_overridesOf_iff (h : Matched a a') {owner n : Text} {o : Override} :
    o ∈ a'.overridesOf owner n ↔ o ∈ a.overridesOf owner n := by
  rw [mem_overridesOf, mem_overridesOf]
  constructor
  · rintro ⟨p', hp', ho, hbase⟩
    obtain ⟨p, hp, halike⟩ := h.exists_alike' hp'
    exact ⟨p, hp, halike.overrides ▸ ho, hbase⟩
  · rintro ⟨p, hp, ho, hbase⟩
    obtain ⟨p', hp', halike⟩ := h.exists_alike hp
    exact ⟨p', hp', halike.overrides.symm ▸ ho, hbase⟩

end Matched

/-- A method has one override on a path: that of the meaning at its end. -/
theorem Complete.override_unique (ha : a.Complete) {owner n : Text} {o o' : Override} (ho : o ∈ a.overridesOf owner n)
    (ho' : o' ∈ a.overridesOf owner n) (hpath : o.path = o'.path) : o = o' := by
  obtain ⟨p, hp, hop, -, hn⟩ := mem_overridesOf.1 ho
  obtain ⟨p', hp', hop', -, hn'⟩ := mem_overridesOf.1 ho'
  obtain ⟨-, -, -, -, hname, -, hlast⟩ := ha.override_spec hp hop
  obtain ⟨-, -, -, -, hname', -, hlast'⟩ := ha.override_spec hp' hop'
  rw [hpath, hlast'] at hlast
  obtain rfl := ha.profile_unique hp' hp (Option.some.inj hlast)
  obtain ⟨asc, us, -, hchain⟩ := ha.exists_chain_of_mem hp
  refine List.inj_on_of_nodup_map (hchain.consistent rfl).overrides_nodup hop hop' ?_
  rw [← hname, ← hname', hn, hn']

theorem getLast?_eq_of_mem_iff {α : Type} {l l' : List α} (hmem : ∀ x, x ∈ l' ↔ x ∈ l)
    (hone : ∀ x ∈ l, ∀ y ∈ l, x = y) : l'.getLast? = l.getLast? := by
  cases hl : l.getLast? with
  | none =>
    rw [List.getLast?_eq_none_iff] at hl ⊢
    rw [List.eq_nil_iff_forall_not_mem]
    intro x hx
    rw [hmem, hl] at hx
    cases hx
  | some x =>
    have hx := List.mem_of_getLast? hl
    cases hl' : l'.getLast? with
    | none =>
      rw [List.getLast?_eq_none_iff] at hl'
      rw [← hmem, hl'] at hx
      cases hx
    | some y => rw [hone x hx y ((hmem y).1 (List.mem_of_getLast? hl'))]

/-- The trees of overrides hold the same code, so every question has the same answer. -/
theorem Matched.exists_resolve (h : Matched a a') (owner n : Text) (asc : List Text) :
    ∃ call, a.resolve owner n asc = .ok call ∧ a'.resolve owner n asc = .ok call := by
  obtain ⟨t, ht, hcode⟩ := h.complete.exists_overrideTree owner n
  obtain ⟨t', ht', hcode'⟩ := h.complete'.exists_overrideTree owner n
  have hsame : t'.codeAt = t.codeAt := by
    funext path
    rw [hcode, hcode']
    congr 1
    apply getLast?_eq_of_mem_iff
    · intro o
      rw [List.mem_filter, List.mem_filter, h.mem_overridesOf_iff]
    · intro o ho o' ho'
      rw [List.mem_filter, beq_iff_eq] at ho ho'
      exact h.complete.override_unique ho.1 ho'.1 (ho.2.trans ho'.2.symm)
  rw [resolve, resolve]
  cases after? owner asc with
  | none => exact ⟨none, rfl, rfl⟩
  | some path =>
    refine ⟨t.resolve path, by rw [ht]; rfl, ?_⟩
    rw [ht', OverrideTree.resolve_eq_getLast? t, ← hsame, ← OverrideTree.resolve_eq_getLast?]
    rfl

/-! ### Files with the same declarations -/

/-- Two analyses agree on a meaning: on its ancestry, on its profile but for the order of submeanings and members, and
on the override of every method. -/
def AgreeOn (a a' : Analysis) (m : Text) : Prop :=
  ∃ asc p p', a.forest.ascending m = .ok asc ∧ a'.forest.ascending m = .ok asc ∧ a.profile m = .ok p ∧
    a'.profile m = .ok p' ∧ p.Alike p' ∧ (a'.forest.submeanings m).Perm (a.forest.submeanings m) ∧
    ∀ owner n, ∃ call, a.resolve owner n asc = .ok call ∧ a'.resolve owner n asc = .ok call

theorem Matched.agreeOn (h : Matched a a') {m : Text} (hm : m ∈ a.forest.names) : a.AgreeOn a' m := by
  obtain ⟨asc, hasc⟩ := h.complete.sound.exists_lineage m
  obtain ⟨p, hp⟩ := h.complete.exists_profile hm
  obtain ⟨p', hp'⟩ := h.complete'.exists_profile ((Forest.names_perm h.nodes).mem_iff.2 hm)
  have halike := h.alike (mem_of_find hp).1 (mem_of_find hp').1 ((mem_of_find hp).2.trans (mem_of_find hp').2.symm)
  refine ⟨asc, p, p', h.complete.sound.ascending_eq hasc, ?_, hp, hp', halike, Forest.submeanings_perm h.nodes m,
    fun owner n => h.exists_resolve owner n asc⟩
  exact h.complete'.sound.ascending_eq (h.parent?_eq ▸ hasc)

/-- If a file has no findings, its declarations in another order have none. -/
theorem Complete.exists_matched (ha : a.Complete) (ha' : a'.Complete) (hclean : a.findings = [])
    (harena : a'.arena = a.arena) (hperm : a'.file.meanings.Perm a.file.meanings) :
    Matched a a' ∧ a'.findings = [] := by
  obtain ⟨hproper, hunambiguous, hprofiles⟩ := ha.findings_eq_nil_iff.1 hclean
  have hproper' := hproper.perm hperm
  have hnodes : a'.forest.nodes.Perm a.forest.nodes := by
    rw [ha.forest_eq, ha'.forest_eq, harena, hproper.ofDecls_eq, hproper'.ofDecls_eq]
    exact Forest.declared_perm hperm
  have hmatched : Matched a a' := ⟨ha, ha', hclean, hnodes⟩
  refine ⟨hmatched, ha'.findings_eq_nil_iff.2 ?_⟩
  rw [harena]
  refine ⟨hproper', hunambiguous.perm hnodes, fun p' hp' => ?_⟩
  obtain ⟨p, hp, halike⟩ := hmatched.exists_alike' hp'
  exact halike.clean.2 (hprofiles p hp)

/-- The order of declarations does not matter: a file has findings exactly if its declarations in another order have
some, and without findings both analyses agree on every meaning. -/
theorem exists_agreeOn (settings : Settings) (file : DeclFile) {meanings : List MeaningDecl}
    (hperm : meanings.Perm file.meanings) : ∃ a a', ofFile settings file = .ok a ∧
      ofFile settings { file with meanings } = .ok a' ∧ (a.findings = [] ↔ a'.findings = []) ∧
      (a.findings = [] → ∀ d ∈ file.meanings, a.AgreeOn a' d.name) := by
  obtain ⟨a, ha, rfl, harena, hcomplete⟩ := exists_ofFile settings file
  obtain ⟨a', ha', hfile', harena', hcomplete'⟩ := exists_ofFile settings { a.file with meanings }
  have hsame : a'.arena = a.arena := by rw [harena', harena]; rfl
  have hmeanings : a'.file.meanings.Perm a.file.meanings := by rw [hfile']; exact hperm
  refine ⟨a, a', ha, ha', ⟨fun hclean => ?_, fun hclean => ?_⟩, fun hclean d hd => ?_⟩
  · exact (hcomplete.exists_matched hcomplete' hclean hsame hmeanings).2
  · exact (hcomplete'.exists_matched hcomplete hclean hsame.symm hmeanings.symm).2
  · obtain ⟨hmatched, -⟩ := hcomplete.exists_matched hcomplete' hclean hsame hmeanings
    exact hmatched.agreeOn (hcomplete.mem_names_of_decl hclean hd)

/-- Two branches below one root; each overrides its method. -/
def branches : DeclFile :=
  let meaning (name parent : Text) (isOverride : Bool) : MeaningDecl :=
    { position := ⟨1, 1⟩, name, parent, parentPosition := ⟨1, 1⟩, doc := [], constructors := []
      fields := [{ position := ⟨1, 1⟩, name := "size", isRef := isOverride, type := "int", default := [] }]
      methods := [{ position := ⟨1, 1⟩, name := "Draw", isOverride, doc := [], typeParams := [], params := []
                    results := [], body := [] }] }
  { name := "branches.mt", meanings := [meaning "Tree" [] false, meaning "Oak" "Tree" true, meaning "Fir" "Tree" true] }

theorem agreeOn_branches : ∃ a a', @ofFile .english {} branches = .ok a ∧ a.findings = [] ∧
    @ofFile .english {} { branches with meanings := branches.meanings.reverse } = .ok a' ∧ a'.findings = [] ∧
    ∀ d ∈ branches.meanings, a.AgreeOn a' d.name := by
  obtain ⟨a, ha, hclean⟩ := exists_clean (by decide +kernel : @cleanInOrder .english {} branches)
  obtain ⟨b, a', hb, ha', hiff, hagree⟩ := exists_agreeOn {} branches (List.reverse_perm branches.meanings)
  rw [ha] at hb
  cases hb
  exact ⟨a, a', ha, hclean, ha', hiff.1 hclean, hagree hclean⟩

end Analysis

end MeaningForest

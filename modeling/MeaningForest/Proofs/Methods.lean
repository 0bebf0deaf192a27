import MeaningForest.Proofs.Analysis
import MeaningForest.Proofs.OverrideTree

/-!
# Methods along an ancestry

On an ancestry every method has one owner (`Chain.method_unique`), and every override has its base further up
(`Chain.exists_base`).  The tree of the overrides of a method can always be built (`Complete.exists_overrideTree`).
Along an ancestry it holds, at the way from the owner down to a meaning, the override that this meaning has
(`Chain.codeAt_overrideTree`).
-/

namespace MeaningForest

variable {lang : Language}

/-- What stands after the first occurrence. -/
theorem after?_append_cons {α : Type} [DecidableEq α] {a : α} {u : List α} (h : a ∉ u) (v : List α) :
    after? a (u ++ a :: v) = some v := by
  induction u with
  | nil => simp [after?]
  | cons b u ih =>
    simp only [List.mem_cons, not_or] at h
    rw [List.cons_append, after?, if_neg (Ne.symm h.1)]
    exact ih h.2

namespace Profile

theorem inheritedMethod?_eq_none {above : List Profile} {n : Text} (h : inheritedMethod? above n = none) :
    ∀ q ∈ above, ∀ f ∈ q.methods, f.name ≠ n := by
  rw [inheritedMethod?, List.findSome?_eq_none_iff] at h
  intro q hq f hf he
  have := List.find?_eq_none.1 (h q (List.mem_reverse.2 hq)) f hf
  simp [he] at this

theorem inheritedMethod?_eq_some {above : List Profile} {n : Text} {f : Method}
    (h : inheritedMethod? above n = some f) : ∃ q ∈ above, f ∈ q.methods ∧ f.name = n := by
  rw [inheritedMethod?, List.findSome?_eq_some_iff] at h
  obtain ⟨u, q, v, huv, hq, -⟩ := h
  have hmem : q ∈ above.reverse := by rw [huv]; simp
  exact ⟨q, List.mem_reverse.1 hmem, List.mem_of_find?_eq_some hq, by simpa using List.find?_some hq⟩

/-- The override of a method that a meaning has. -/
def overrideOf? (p : Profile) (n : Text) : Option Override := p.overrides.find? (·.decl.name == n)

theorem overrideOf?_eq_some {p : Profile} {above : List Profile} (hp : p.Consistent above) {n : Text} {o : Override} :
    p.overrideOf? n = some o ↔ o ∈ p.overrides ∧ o.decl.name = n := by
  constructor
  · intro h
    exact ⟨List.mem_of_find?_eq_some h, by simpa using List.find?_some h⟩
  · rintro ⟨ho, rfl⟩
    cases h : p.overrideOf? o.decl.name with
    | none => exact absurd (List.find?_eq_none.1 h o ho) (by simp)
    | some o' =>
      have ho' : o' ∈ p.overrides := List.mem_of_find?_eq_some h
      have hname : o'.decl.name = o.decl.name := by simpa using List.find?_some h
      rw [List.inj_on_of_nodup_map hp.overrides_nodup ho' ho hname]

end Profile

namespace Analysis

variable {a : Analysis} {asc : List Text} {ps : List Profile}

namespace Chain

/-- On an ancestry a method name belongs to one method of one meaning. -/
theorem method_unique (h : a.Chain asc ps) {q q' : Profile} (hq : q ∈ ps) (hq' : q' ∈ ps) {f f' : Method}
    (hf : f ∈ q.methods) (hf' : f' ∈ q'.methods) (hname : f.name = f'.name) : q = q' ∧ f = f' := by
  -- a method of a later meaning is new with respect to the earlier ones
  have hnew : ∀ {us vs : List Profile} {r r' : Profile} {g g' : Method}, ps = us ++ r :: vs → r' ∈ us →
      g ∈ r.methods → g' ∈ r'.methods → g.name ≠ g'.name := by
    intro us vs r r' g g' hps hr' hg hg' he
    exact Profile.inheritedMethod?_eq_none ((h.consistent hps).methods_new g hg) r' hr' g' hg' he.symm
  obtain ⟨us, vs, hps⟩ := List.append_of_mem hq
  have hmem : q' ∈ us ++ q :: vs := hps ▸ hq'
  rw [List.mem_append, List.mem_cons] at hmem
  rcases hmem with hmem | rfl | hmem
  · exact absurd hname (hnew hps hmem hf hf')
  · exact ⟨rfl, List.inj_on_of_nodup_map (h.consistent hps).methods_nodup hf hf' hname⟩
  · obtain ⟨us', vs', rfl⟩ := List.append_of_mem hmem
    have hps' : ps = (us ++ q :: us') ++ q' :: vs' := by simpa using hps
    exact absurd hname.symm (hnew hps' (by simp) hf' hf)

/-- The base of an override is a method of the same name of an ancestor. -/
theorem exists_base (h : a.Chain asc ps) {us vs : List Profile} {p : Profile} (hps : ps = us ++ p :: vs)
    {o : Override} (ho : o ∈ p.overrides) : ∃ q ∈ us, o.base ∈ q.methods ∧ o.base.name = o.decl.name :=
  Profile.inheritedMethod?_eq_some ((h.consistent hps).overrides_base o ho)

theorem owner_eq (h : a.Chain asc ps) {q : Profile} (hq : q ∈ ps) {f : Method} (hf : f ∈ q.methods) :
    f.owner = q.name := by
  obtain ⟨us, vs, hps⟩ := List.append_of_mem hq
  exact (h.consistent hps).methods_owner hf

/-- The path of an override leads from below the owner of its base to the meaning that overrides. -/
theorem path_eq (h : a.Chain asc ps) (hnd : asc.Nodup) {us ws vs : List Profile} {q p : Profile}
    (hps : ps = us ++ q :: (ws ++ p :: vs)) {o : Override} (ho : o ∈ p.overrides) (howner : o.base.owner = q.name) :
    o.path = (ws ++ [p]).map (·.name) := by
  have hps' : ps = (us ++ q :: ws) ++ p :: vs := by simpa using hps
  have hnew : q.name ∉ us.map (·.name) := by
    rw [← h.names_eq, hps, List.map_append, List.map_cons] at hnd
    exact notMem_of_nodup hnd
  rw [(h.consistent hps').overrides_path o ho, Profile.pathBelow, howner, h.ascending_eq hps']
  have hcut : ((us ++ q :: ws) ++ [p]).map (·.name) =
      us.map (·.name) ++ q.name :: (ws ++ [p]).map (·.name) := by simp
  rw [hcut, after?_append_cons hnew]
  rfl

end Chain

/-! ### The tree of overrides -/

theorem mem_overridesOf {owner n : Text} {o : Override} :
    o ∈ a.overridesOf owner n ↔ ∃ p ∈ a.profiles, o ∈ p.overrides ∧ o.base.owner = owner ∧ o.base.name = n := by
  simp [overridesOf]

/-- What is known of an override: its base belongs to an ancestor, and its path goes down from there. -/
theorem Complete.override_spec (ha : a.Complete) {p : Profile} (hp : p ∈ a.profiles) {o : Override}
    (ho : o ∈ p.overrides) : ∃ q ∈ a.profiles, o.base ∈ q.methods ∧ o.base.owner = q.name ∧
      o.base.name = o.decl.name ∧ (q.name :: o.path).IsChain (fun x y => a.forest.parent? y = some x) ∧
        o.path.getLast? = some p.name := by
  obtain ⟨asc, us, hasc, hchain⟩ := ha.exists_chain_of_mem hp
  obtain ⟨q, hq, hbase, hname⟩ := hchain.exists_base rfl ho
  obtain ⟨us', ws, rfl⟩ := List.append_of_mem hq
  have howner := hchain.owner_eq (by simp) hbase
  have hpath := hchain.path_eq hasc.nodup (by simp : _ = us' ++ q :: (ws ++ p :: [])) ho howner
  refine ⟨q, hchain.mem_profiles (by simp), hbase, howner, hname, ?_, by simp [hpath]⟩
  have hdown := hasc.isChain
  rw [← hchain.names_eq, List.append_assoc, List.map_append] at hdown
  rw [hpath, ← List.map_cons]
  exact hdown.right_of_append

/-- Overrides with paths build a tree, which holds the last override of each path. -/
theorem exists_foldlM_addTo (os : List Override) (hos : ∀ o ∈ os, o.path ≠ []) (t : OverrideTree Text OverrideCall) :
    ∃ t', os.foldlM Override.addTo t = .ok t' ∧
      ∀ q, t'.codeAt q = ((os.filter (·.path == q)).getLast?.map Override.call).or (t.codeAt q) := by
  induction os generalizing t with
  | nil => exact ⟨t, rfl, by simp⟩
  | cons o os ih =>
    obtain ⟨k, path, hpath⟩ := List.exists_cons_of_ne_nil (hos o (by simp))
    have hadd : Override.addTo t o = .ok (t.register o.call k path) := by rw [Override.addTo, hpath]
    obtain ⟨t', hrun, hcode⟩ := ih (fun x hx => hos x (by simp [hx])) (t.register o.call k path)
    refine ⟨t', by rw [List.foldlM_cons, hadd]; exact hrun, fun q => ?_⟩
    rw [hcode, OverrideTree.codeAt_register]
    by_cases hq : q = k :: path
    · rw [if_pos hq, List.filter_cons, if_pos (by simp [hpath, hq])]
      cases hl : (os.filter (·.path == q)).getLast? with
      | none => rw [List.getLast?_eq_none_iff.1 hl]; rfl
      | some o' => rw [List.getLast?_cons, hl]; rfl
    · rw [if_neg hq, List.filter_cons, if_neg (by simp [hpath, Ne.symm hq])]

theorem Complete.exists_overrideTree (ha : a.Complete) (owner n : Text) : ∃ t, a.overrideTree owner n = .ok t ∧
    ∀ q, t.codeAt q = ((a.overridesOf owner n).filter (·.path == q)).getLast?.map Override.call := by
  have hpaths : ∀ o ∈ a.overridesOf owner n, o.path ≠ [] := by
    intro o ho
    obtain ⟨p, hp, hop, -⟩ := mem_overridesOf.1 ho
    obtain ⟨-, -, -, -, -, -, hlast⟩ := ha.override_spec hp hop
    rintro hnil
    simp [hnil] at hlast
  obtain ⟨t, ht, hcode⟩ := exists_foldlM_addTo _ hpaths .nil
  exact ⟨t, ht, fun q => by rw [hcode]; simp⟩

/-- Along an ancestry the tree of a method holds, at the way down to a meaning, the override of that meaning. -/
theorem Chain.codeAt_overrideTree (h : a.Chain asc ps) (ha : a.Complete) (hnd : asc.Nodup)
    {us ws vs : List Profile} {q p : Profile} (hps : ps = us ++ q :: (ws ++ p :: vs)) {f : Method}
    (hf : f ∈ q.methods) {t : OverrideTree Text OverrideCall} (ht : a.overrideTree q.name f.name = .ok t) :
    t.codeAt ((ws ++ [p]).map (·.name)) = (p.overrideOf? f.name).map Override.call := by
  have hps' : ps = (us ++ q :: ws) ++ p :: vs := by simpa using hps
  have hp := h.consistent hps'
  obtain ⟨t', ht', hcode⟩ := ha.exists_overrideTree q.name f.name
  rw [ht] at ht'
  cases ht'
  -- what is registered on this way is what `p` overrides
  have hmem : ∀ o, o ∈ (a.overridesOf q.name f.name).filter (·.path == (ws ++ [p]).map (·.name)) ↔
      p.overrideOf? f.name = some o := by
    intro o
    rw [List.mem_filter, mem_overridesOf, beq_iff_eq, Profile.overrideOf?_eq_some hp]
    constructor
    · rintro ⟨⟨p', hp', ho, -, hname⟩, hpath⟩
      obtain ⟨-, -, -, -, -, -, hlast⟩ := ha.override_spec hp' ho
      have hlast : p'.name = p.name := by
        rw [hpath] at hlast
        simpa using hlast.symm
      obtain rfl := ha.profile_unique hp' (h.mem_profiles (by rw [hps']; simp)) hlast
      obtain ⟨r, -, -, hbase⟩ := h.exists_base hps' ho
      exact ⟨ho, hbase.symm.trans hname⟩
    · rintro ⟨ho, hname⟩
      obtain ⟨r, hr, hrbase, hbase⟩ := h.exists_base hps' ho
      obtain ⟨rfl, rfl⟩ := h.method_unique (by rw [hps]; simp) (by rw [hps']; exact List.mem_append_left _ hr) hf hrbase
        (hbase.trans hname).symm
      have howner := h.owner_eq (by rw [hps]; simp) hf
      exact ⟨⟨p, h.mem_profiles (by rw [hps']; simp), ho, howner, rfl⟩, h.path_eq hnd hps ho howner⟩
  rw [hcode]
  congr 1
  cases hl : ((a.overridesOf q.name f.name).filter (·.path == (ws ++ [p]).map (·.name))).getLast? with
  | some o => exact ((hmem o).1 (List.mem_of_getLast? hl)).symm
  | none =>
    rw [List.getLast?_eq_none_iff] at hl
    cases ho : p.overrideOf? f.name with
    | none => rfl
    | some o =>
      have := (hmem o).2 ho
      rw [hl] at this
      cases this

end Analysis

/-! ### Declared methods -/

/-- Whether a meaning declares a method, as an override or not. -/
def DeclFile.declares (file : DeclFile) (isOverride : Bool) (n m : Text) : Bool :=
  file.meanings.any fun d => d.name == m && d.methods.any fun f => f.name == n && f.isOverride == isOverride

namespace Analysis.Complete

variable {a : Analysis}

theorem declares_iff (ha : a.Complete) (hclean : a.findings = []) {p : Profile} (hp : p ∈ a.profiles)
    (isOverride : Bool) (n : Text) : a.file.declares isOverride n p.name ↔
      ∃ f ∈ p.decl.methods, f.name = n ∧ f.isOverride = isOverride := by
  obtain ⟨hdecl, -⟩ := ha.profile_clean hclean hp
  simp only [DeclFile.declares, List.any_eq_true, Bool.and_eq_true, beq_iff_eq]
  constructor
  · rintro ⟨d, hd, hname, hf⟩
    obtain rfl := ha.decl_unique hclean hd hdecl hname
    exact hf
  · rintro hf
    exact ⟨p.decl, hdecl, rfl, hf⟩

theorem declares_method (ha : a.Complete) (hclean : a.findings = []) {p : Profile} (hp : p ∈ a.profiles) (n : Text) :
    a.file.declares false n p.name ↔ ∃ f ∈ p.methods, f.name = n := by
  obtain ⟨-, -, hmethods, -⟩ := ha.profile_clean hclean hp
  rw [ha.declares_iff hclean hp]
  have hmem : ∀ d, d ∈ p.methods.map (·.decl) ↔ d ∈ p.decl.methods ∧ d.isOverride = false := by
    simp [hmethods]
  constructor
  · rintro ⟨d, hd, hname, hover⟩
    obtain ⟨f, hf, rfl⟩ := List.mem_map.1 ((hmem d).2 ⟨hd, hover⟩)
    exact ⟨f, hf, hname⟩
  · rintro ⟨f, hf, hname⟩
    obtain ⟨hd, hover⟩ := (hmem f.decl).1 (List.mem_map_of_mem hf)
    exact ⟨f.decl, hd, hname, hover⟩

theorem declares_override (ha : a.Complete) (hclean : a.findings = []) {p : Profile} (hp : p ∈ a.profiles)
    (n : Text) : a.file.declares true n p.name = (p.overrideOf? n).isSome := by
  obtain ⟨-, -, -, hoverrides⟩ := ha.profile_clean hclean hp
  have hmem : ∀ d, d ∈ p.overrides.map (·.decl) ↔ d ∈ p.decl.methods ∧ d.isOverride = true := by
    simp [hoverrides]
  rw [Bool.eq_iff_iff, ha.declares_iff hclean hp, Profile.overrideOf?, List.find?_isSome]
  constructor
  · rintro ⟨d, hd, hname, hover⟩
    obtain ⟨o, ho, rfl⟩ := List.mem_map.1 ((hmem d).2 ⟨hd, hover⟩)
    exact ⟨o, ho, by simpa using hname⟩
  · rintro ⟨o, ho, hname⟩
    obtain ⟨hd, hover⟩ := (hmem o.decl).1 (List.mem_map_of_mem ho)
    exact ⟨o.decl, hd, by simpa using hname, hover⟩

end Analysis.Complete

end MeaningForest

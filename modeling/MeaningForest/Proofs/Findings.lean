import MeaningForest.Proofs.Names

/-!
# When a forest has findings

The declarations of a file are registered, attached to their parents and freed of cycles one after the other, and each
step depends on those before it.  Whether anything is found on the way depends on the set of declarations only.

* `findings_ofDecls_iff`: nothing is found exactly if the declarations form a forest (`Proper`), and then this forest
  is the one that is made (`Proper.ofDecls_eq`).
* `nameFindings_eq_nil_iff`: no generated name is reported exactly if each belongs to one meaning.
* `Proper.perm`, `Unambiguous.perm`: neither depends on the order of declarations.
* `Complete.findings_eq_nil_iff`: besides, an analysis without findings has none in the profiles.
-/

namespace MeaningForest

variable {lang : Language}

namespace Forest

/-! ### Declarations without findings -/

/-- Whether a meaning may have a name. -/
def Admissible (arena name : Text) : Prop := name ≠ arena ∧ name ≠ runtimeName ∧ name ≠ Text.ofString "_"

theorem rejection?_eq_none_iff {arena : Text} {registered : List MeaningDecl} {d : MeaningDecl} :
    rejection? arena registered d = none ↔ d.name ∉ registered.map (·.name) ∧ Admissible arena d.name := by
  rw [rejection?, Admissible]
  have hany : registered.any (·.name == d.name) = true ↔ d.name ∈ registered.map (·.name) := by simp
  by_cases hmem : d.name ∈ registered.map (·.name)
  · simp [hany.2 hmem, hmem]
  · rw [if_neg (fun h => hmem (hany.1 h))]
    by_cases harena : d.name = arena
    · simp [harena]
    · simp [harena, hmem]

/-- All declarations are registered exactly if their names are admissible and new. -/
theorem foldl_register_iff (arena : Text) (decls : List MeaningDecl) (acc : List MeaningDecl × List Finding)
    (hacc : (acc.1.map (·.name)).Nodup) : (decls.foldl (register arena) acc).2 = [] ↔
      acc.2 = [] ∧ ((acc.1 ++ decls).map (·.name)).Nodup ∧ ∀ d ∈ decls, Admissible arena d.name := by
  induction decls generalizing acc with
  | nil => simp [hacc]
  | cons d decls ih =>
    rw [List.foldl_cons]
    cases hr : rejection? arena acc.1 d with
    | some p =>
      have hreg : register arena acc d = (acc.1, acc.2 ++ [.found d.position p]) := by rw [register, hr]
      rw [ih _ (by rw [hreg]; exact hacc), hreg]
      have hnot : ¬ (d.name ∉ acc.1.map (·.name) ∧ Admissible arena d.name) := by
        rw [← rejection?_eq_none_iff, hr]
        simp
      constructor
      · rintro ⟨h, -⟩
        simp at h
      · rintro ⟨-, hnodup, hadm⟩
        rw [List.map_append, List.map_cons] at hnodup
        exact absurd ⟨notMem_of_nodup hnodup, hadm d (by simp)⟩ hnot
    | none =>
      have hreg : register arena acc d = (acc.1 ++ [d], acc.2) := by rw [register, hr]
      obtain ⟨hnew, hadm⟩ := rejection?_eq_none_iff.1 hr
      have hacc' : ((acc.1 ++ [d]).map (·.name)).Nodup := by
        rw [List.map_append, List.nodup_append]
        refine ⟨hacc, by simp, ?_⟩
        rintro x hx y hy rfl
        obtain rfl : x = d.name := by simpa using hy
        exact hnew hx
      rw [ih _ (by rw [hreg]; exact hacc'), hreg]
      simp [hadm]

theorem filterMap_unknownParent?_iff {decls : List MeaningDecl} : decls.filterMap (unknownParent? decls) = [] ↔
    ∀ d ∈ decls, d.parent ≠ [] → d.parent ∈ decls.map (·.name) := by
  rw [List.filterMap_eq_nil_iff]
  refine forall₂_congr fun d _ => ?_
  rw [unknownParent?]
  simp

/-- A way that is found leads there. -/
theorem ascent_of_wayTo? {f : Forest} {m a : Text} {steps : Nat} {way : List Text} (h : f.wayTo? m steps a = some way) :
    ∃ k, 0 < k ∧ ascent f.parent? k a = some m := by
  induction steps generalizing a way with
  | zero => cases h
  | succ steps ih =>
    rw [wayTo?] at h
    cases hp : f.parent? a with
    | none => rw [hp] at h; cases h
    | some p =>
      simp only [hp] at h
      split at h
      · rename_i hpm
        exact ⟨1, by omega, by simp [ascent, hp, hpm]⟩
      · obtain ⟨rest, hrest, -⟩ := Option.map_eq_some_iff.1 h
        obtain ⟨k, -, hk⟩ := ih hrest
        exact ⟨k + 1, by omega, by simp [ascent, hp, hk]⟩

theorem cycle?_eq_none_iff {f : Forest} {m : Text} : f.cycle? m = none ↔ ¬ OnCycle f.parent? m := by
  refine ⟨not_onCycle_of_cycle?, fun h => ?_⟩
  rw [cycle?, Option.map_eq_none_iff]
  cases hway : f.wayTo? m f.nodes.length m with
  | none => rfl
  | some way => exact absurd (ascent_of_wayTo? hway) h

/-- Without cycles nothing is detached; every cycle is reported. -/
theorem foldl_breakCycle_iff (nodes : List ForestNode) (acc : Forest × List Finding) :
    ((nodes.foldl breakCycle acc).2 = [] ↔ acc.2 = [] ∧ ∀ n ∈ nodes, ¬ OnCycle acc.1.parent? n.name) ∧
      ((∀ n ∈ nodes, ¬ OnCycle acc.1.parent? n.name) → nodes.foldl breakCycle acc = acc) := by
  induction nodes generalizing acc with
  | nil => simp
  | cons n nodes ih =>
    rw [List.foldl_cons]
    obtain ⟨hiff, hsame⟩ := ih (breakCycle acc n)
    cases hc : acc.1.cycle? n.name with
    | none =>
      have hkeep : breakCycle acc n = acc := by rw [breakCycle, hc]
      rw [hkeep] at hiff hsame ⊢
      have hn := cycle?_eq_none_iff.1 hc
      refine ⟨by simp [hiff, hn], fun h => hsame fun x hx => h x (by simp [hx])⟩
    | some cycle =>
      have hn : OnCycle acc.1.parent? n.name := by
        by_contra hn
        rw [cycle?_eq_none_iff.2 hn] at hc
        cases hc
      refine ⟨⟨fun h => ?_, fun h => absurd hn (h.2 n (by simp))⟩, fun h => absurd hn (h n (by simp))⟩
      have hreported := (hiff.1 h).1
      simp [breakCycle, hc] at hreported

/-- The forest that declarations ask for. -/
def declared (decls : List MeaningDecl) : Forest := ⟨decls.map (attach decls)⟩

theorem names_declared (decls : List MeaningDecl) : (declared decls).names = decls.map (·.name) := by
  simp [declared, names, ForestNode.name, attach, Function.comp_def]

/-- Declarations that form a forest: their names are admissible and distinct, the parents they name are declared, and
none is its own ancestor. -/
structure Proper (arena : Text) (decls : List MeaningDecl) : Prop where
  nodup : (decls.map (·.name)).Nodup
  admissible : ∀ d ∈ decls, Admissible arena d.name
  parents : ∀ d ∈ decls, d.parent ≠ [] → d.parent ∈ decls.map (·.name)
  acyclic : ∀ m ∈ decls.map (·.name), ¬ OnCycle (declared decls).parent? m

theorem findings_ofDecls_iff {arena : Text} {decls : List MeaningDecl} :
    (ofDecls arena decls).2 = [] ↔ Proper arena decls := by
  have hregister := @foldl_register_iff lang arena decls ([], []) (by simp)
  have hcycles : ∀ registered, registered = decls →
      (((registered.map (attach registered)).foldl breakCycle (⟨registered.map (attach registered)⟩, [])).2 = [] ↔
        ∀ m ∈ decls.map (·.name), ¬ OnCycle (declared decls).parent? m) := by
    rintro _ rfl
    rw [(foldl_breakCycle_iff _ _).1, ← names_declared]
    simp [declared, names]
  simp only [ofDecls_eq, List.append_eq_nil_iff]
  constructor
  · rintro ⟨⟨hclean, hparents⟩, hacyclic⟩
    have hall := (foldl_register_clean arena decls hclean).2
    obtain ⟨-, hnodup, hadm⟩ := hregister.1 hclean
    rw [hall] at hparents
    exact ⟨hnodup, hadm, filterMap_unknownParent?_iff.1 hparents, (hcycles _ hall).1 hacyclic⟩
  · intro h
    have hclean := hregister.2 ⟨rfl, h.nodup, h.admissible⟩
    have hall := (foldl_register_clean arena decls hclean).2
    refine ⟨⟨hclean, ?_⟩, (hcycles _ hall).2 h.acyclic⟩
    rw [hall]
    exact filterMap_unknownParent?_iff.2 h.parents

theorem Proper.ofDecls_eq {arena : Text} {decls : List MeaningDecl} (h : Proper arena decls) :
    (ofDecls arena decls).1 = declared decls := by
  have hclean := (@foldl_register_iff lang arena decls ([], []) (by simp)).2 ⟨rfl, h.nodup, h.admissible⟩
  have hall : (decls.foldl (register arena) ([], [])).1 = decls := (foldl_register_clean arena decls hclean).2
  simp only [Forest.ofDecls_eq, hall]
  rw [(foldl_breakCycle_iff _ _).2]
  · rfl
  · intro n hn
    refine h.acyclic n.name ?_
    rw [← names_declared]
    exact mem_names hn

/-! ### Forests with the same nodes -/

section Permuted

variable {f g : Forest}

theorem names_perm (h : g.nodes.Perm f.nodes) : g.names.Perm f.names := h.map _

theorem submeanings_perm (h : g.nodes.Perm f.nodes) (m : Text) : (g.submeanings m).Perm (f.submeanings m) :=
  (h.filter _).map _

/-- Names are distinct, so the parent of a meaning is found in any order. -/
theorem parent?_perm (hnd : f.names.Nodup) (h : g.nodes.Perm f.nodes) : g.parent? = f.parent? := by
  funext m
  by_cases hm : m ∈ f.names
  · obtain ⟨n, hn, rfl⟩ := exists_node hm
    rw [parent?_of_mem hnd hn, parent?_of_mem ((names_perm h).nodup_iff.2 hnd) (h.mem_iff.2 hn)]
  · have hnone : ∀ e : Forest, m ∉ e.names → e.parent? m = none := by
      intro e he
      cases hp : e.parent? m with
      | none => rfl
      | some p => exact absurd (mem_names_of_parent? hp) he
    rw [hnone f hm, hnone g (fun hg => hm ((names_perm h).mem_iff.1 hg))]

end Permuted

theorem declared_perm {decls decls' : List MeaningDecl} (h : decls'.Perm decls) :
    (declared decls').nodes.Perm (declared decls).nodes := by
  have hattach : attach decls' = attach decls := by
    funext d
    have hany : decls'.any (·.name == d.parent) = decls.any (·.name == d.parent) := by
      rw [Bool.eq_iff_iff, List.any_eq_true, List.any_eq_true]
      simp only [h.mem_iff]
    rw [attach, attach, hany]
  rw [declared, declared, hattach]
  exact h.map _

theorem Proper.perm {arena : Text} {decls decls' : List MeaningDecl} (hd : Proper arena decls)
    (h : decls'.Perm decls) : Proper arena decls' where
  nodup := (h.map _).nodup_iff.2 hd.nodup
  admissible := fun d hmem => hd.admissible d (h.mem_iff.1 hmem)
  parents := fun d hmem hne => (h.map _).mem_iff.2 (hd.parents d (h.mem_iff.1 hmem) hne)
  acyclic := by
    intro m hm
    rw [parent?_perm (by rw [names_declared]; exact hd.nodup) (declared_perm h)]
    exact hd.acyclic m ((h.map _).mem_iff.1 hm)

/-! ### Generated names -/

/-- Names that belong to nobody else can be taken, and then belong to the meaning. -/
theorem takeNames_free (m : Text) (owners : Owners) (names : List Text)
    (hfree : ∀ name ∈ names, ∀ o, owners.lookup name = some o → o = m) :
    (takeNames m owners names).2 = false ∧ ∀ name o, (takeNames m owners names).1.lookup name = some o →
      owners.lookup name = some o ∨ (o = m ∧ name ∈ names) := by
  induction names generalizing owners with
  | nil => exact ⟨rfl, fun _ _ h => .inl h⟩
  | cons x names ih =>
    rw [takeNames]
    cases hlook : owners.lookup x with
    | some owner =>
      obtain rfl := hfree x (by simp) owner hlook
      obtain ⟨hclash, hlookup⟩ := ih owners fun name hn => hfree name (by simp [hn])
      simp only [if_true]
      refine ⟨hclash, fun name o ho => (hlookup name o ho).imp_right fun h => ⟨h.1, by simp [h.2]⟩⟩
    | none =>
      have hadd : ∀ name o, (owners ++ [(x, m)]).lookup name = some o →
          owners.lookup name = some o ∨ (o = m ∧ name = x) := by
        intro name o ho
        rw [List.lookup_append] at ho
        cases hn : owners.lookup name with
        | some o' => rw [hn] at ho; exact .inl ho
        | none =>
          rw [hn, Option.none_or, List.lookup_cons] at ho
          split at ho
          · rename_i heq
            exact .inr ⟨(Option.some.inj ho).symm, by simpa using heq⟩
          · cases ho
      obtain ⟨hclash, hlookup⟩ := ih (owners ++ [(x, m)]) fun name hn o ho =>
        (hadd name o ho).elim (hfree name (by simp [hn]) o) And.left
      refine ⟨hclash, fun name o ho => ?_⟩
      rcases hlookup name o ho with h | ⟨rfl, h⟩
      · exact (hadd name o h).imp_right fun h => ⟨h.1, by simp [h.2]⟩
      · exact .inr ⟨rfl, by simp [h]⟩

/-- If no name has two owners, the names of all meanings can be taken. -/
theorem foldl_takeTopLevel_free {f : Forest} {arena : Text} (h : f.Unambiguous arena) (nodes : List ForestNode)
    (hnodes : nodes ⊆ f.nodes) (acc : Owners × List Finding)
    (hacc : ∀ name o, acc.1.lookup name = some o → o ∈ f.names ∧ name ∈ f.topLevel o) :
    (nodes.foldl f.takeTopLevel acc).2 = acc.2 ∧ ∀ name o,
      (nodes.foldl f.takeTopLevel acc).1.lookup name = some o → o ∈ f.names ∧ name ∈ f.topLevel o := by
  induction nodes generalizing acc with
  | nil => exact ⟨rfl, hacc⟩
  | cons n nodes ih =>
    rw [List.cons_subset] at hnodes
    have hn := mem_names hnodes.1
    obtain ⟨hclash, hlookup⟩ := takeNames_free n.name acc.1 (f.topLevel n.name) fun name hname o ho => by
      obtain ⟨hom, hno⟩ := hacc name o ho
      exact h.owner o hom n.name hn name hno hname
    rcases htake : takeNames n.name acc.1 (f.topLevel n.name) with ⟨owners, clash⟩
    rw [htake] at hclash hlookup
    have hstep : f.takeTopLevel acc n = (owners, acc.2) := by
      rw [takeTopLevel, ← topLevel, htake]
      cases clash with
      | true => cases hclash
      | false => rfl
    rw [List.foldl_cons, hstep]
    refine ih hnodes.2 (owners, acc.2) fun name o ho => ?_
    rcases hlookup name o ho with h | ⟨rfl, h⟩
    · exact hacc name o h
    · exact ⟨hn, h⟩

theorem nameFindings_eq_nil_iff {f : Forest} {arena : Text} : f.nameFindings arena = [] ↔ f.Unambiguous arena := by
  refine ⟨unambiguous_of_clean, fun h => ?_⟩
  obtain ⟨hclash, howned⟩ := foldl_takeTopLevel_free h f.nodes (List.Subset.refl _) ([], []) (by simp)
  -- a name that is looked up would belong to a meaning
  have hnone : ∀ name, (∀ m ∈ f.names, name ∉ f.topLevel m) →
      ((f.nodes.foldl f.takeTopLevel ([], [])).1.lookup name).isSome = false := by
    intro name hname
    cases hlook : (f.nodes.foldl f.takeTopLevel ([], [])).1.lookup name with
    | none => rfl
    | some o => exact absurd (howned name o hlook).2 (hname o (howned name o hlook).1)
  simp only [nameFindings, List.append_eq_nil_iff, List.map_eq_nil_iff, List.filter_eq_nil_iff]
  refine ⟨⟨hclash, by simp [hnone arena h.arena_notMem]⟩, fun n hn => ?_⟩
  simp [hnone n.name (h.name_notMem n.name (mem_names hn))]

theorem Unambiguous.perm {f g : Forest} {arena : Text} (hf : f.Unambiguous arena) (h : g.nodes.Perm f.nodes) :
    g.Unambiguous arena := by
  have hnames : ∀ m, m ∈ g.names ↔ m ∈ f.names := fun m => (names_perm h).mem_iff
  have htop : ∀ m name, name ∈ g.topLevel m ↔ name ∈ f.topLevel m := by
    intro m name
    simp only [topLevel, topLevelNames, List.mem_append, List.mem_map, (submeanings_perm h m).mem_iff]
  constructor <;> simp only [hnames, htop]
  · exact hf.owner
  · exact hf.arena_notMem
  · exact hf.name_notMem

end Forest

/-! ### Analyses without findings -/

namespace Analysis.Complete

variable {a : Analysis}

/-- What an analysis looks at: the declarations, the generated names, and each meaning. -/
theorem findings_eq_nil_iff (ha : a.Complete) : a.findings = [] ↔
    Forest.Proper a.arena a.file.meanings ∧ a.forest.Unambiguous a.arena ∧ ∀ p ∈ a.profiles, p.findings = [] := by
  rw [ha.findings_eq, List.append_eq_nil_iff, List.append_eq_nil_iff, Forest.findings_ofDecls_iff,
    Forest.nameFindings_eq_nil_iff, List.flatMap_eq_nil_iff, and_assoc]

theorem proper (ha : a.Complete) (hclean : a.findings = []) : Forest.Proper a.arena a.file.meanings :=
  (ha.findings_eq_nil_iff.1 hclean).1

end Analysis.Complete

end MeaningForest

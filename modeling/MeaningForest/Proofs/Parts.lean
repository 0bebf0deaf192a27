import MeaningForest.Proofs.Findings
import MeaningForest.Proofs.Generation

/-!
# Parts of an analysis

A part of a file takes some of its meanings, each of them with its parent and with its submeanings.  If the file has no
findings, the analysis of a part is what the analysis of the file says of these meanings (`Analysis.Part`).

* The forest of the part has the same parents, submeanings and ancestries (`Forest.Closed.parent?_eq`,
  `Forest.Closed.submeanings_eq`, `Forest.Closed.lineage`).
* Profiles are made in order of depth, and sorting keeps the order of meanings of one depth.  So the order of the part
  is that of the file without the other meanings (`filter_mergeSort`, `Forest.Closed.byDepth_restrict`).
* The profiles are the same and in the same order (`Part.profiles_eq`), and the part has no findings either
  (`Part.findings_eq_nil`).
* Hence its meanings have the same overrides and the same code (`Part.overridesOf_eq`, `Part.exists_fileCode`).
-/

namespace MeaningForest

variable {lang : Language}

/-! ### Lists that elements are left out of -/

theorem flatMap_filter {α β : Type} {p : α → Bool} {f : α → List β} {l : List α}
    (h : ∀ x ∈ l, p x = false → f x = []) : (l.filter p).flatMap f = l.flatMap f := by
  induction l with
  | nil => rfl
  | cons x l ih =>
    have hrest := ih fun y hy => h y (List.mem_cons_of_mem x hy)
    by_cases hx : p x
    · rw [List.filter_cons_of_pos hx, List.flatMap_cons, List.flatMap_cons, hrest]
    · rw [List.filter_cons_of_neg hx, List.flatMap_cons, hrest, h x (by simp) (by simpa using hx), List.nil_append]

/-- Two ways to cut a list between elements without and elements with a property are one. -/
theorem append_inj_of_filter {α : Type} {q : α → Bool} {u u' v v' : List α} (h : u ++ v = u' ++ v')
    (hu : ∀ x ∈ u, q x = false) (hu' : ∀ x ∈ u', q x = false) (hv : ∀ x ∈ v, q x) (hv' : ∀ x ∈ v', q x) :
    u = u' ∧ v = v' := by
  have hfilter : ∀ {s t : List α}, (∀ x ∈ s, q x = false) → (∀ x ∈ t, q x) → (s ++ t).filter q = t := by
    intro s t hs ht
    rw [List.filter_append, List.filter_eq_nil_iff.2 (by simpa using hs), List.filter_eq_self.2 ht, List.nil_append]
  have hvv : v = v' := by rw [← hfilter hu hv, h, hfilter hu' hv']
  subst hvv
  exact ⟨List.append_cancel_right h, rfl⟩

/-- Sorting is stable, so it does not matter whether elements are left out before or after. -/
theorem filter_mergeSort {α : Type} {le : α → α → Bool} (trans : ∀ a b c, le a b → le b c → le a c)
    (total : ∀ a b, le a b || le b a) (p : α → Bool) (l : List α) :
    (l.mergeSort le).filter p = (l.filter p).mergeSort le := by
  induction l with
  | nil => simp
  | cons a l ih =>
    obtain ⟨u, v, hcons, htail, hu⟩ := List.mergeSort_cons trans total a l
    have hv : ∀ x ∈ v, le a x := by
      have hsorted := List.pairwise_mergeSort trans total (a :: l)
      rw [hcons, List.pairwise_append, List.pairwise_cons] at hsorted
      exact hsorted.2.1.1
    rw [htail, List.filter_append] at ih
    rw [hcons, List.filter_append]
    by_cases ha : p a
    · rw [List.filter_cons_of_pos ha, List.filter_cons_of_pos ha]
      obtain ⟨u', v', hcons', htail', hu'⟩ := List.mergeSort_cons trans total a (l.filter p)
      have hv' : ∀ x ∈ v', le a x := by
        have hsorted := List.pairwise_mergeSort trans total (a :: l.filter p)
        rw [hcons', List.pairwise_append, List.pairwise_cons] at hsorted
        exact hsorted.2.1.1
      -- `a` stands before the first element that is not below it, in either list
      rw [htail'] at ih
      obtain ⟨rfl, rfl⟩ := append_inj_of_filter ih (fun x hx => by simpa using hu x (List.mem_of_mem_filter hx))
        (fun x hx => by simpa using hu' x hx) (fun x hx => hv x (List.mem_of_mem_filter hx)) hv'
      exact hcons'.symm
    · rw [List.filter_cons_of_neg ha, List.filter_cons_of_neg ha]
      exact ih

/-! ### Parts of a forest -/

namespace Forest

/-- The meanings of a forest that are kept. -/
def restrict (f : Forest) (keep : Text → Bool) : Forest := ⟨f.nodes.filter fun n => keep n.name⟩

/-- A meaning is kept exactly if its parent is. -/
def Closed (f : Forest) (keep : Text → Bool) : Prop := ∀ m p, f.parent? m = some p → keep p = keep m

variable {f : Forest} {keep : Text → Bool}

theorem names_restrict (f : Forest) (keep : Text → Bool) : (f.restrict keep).names = f.names.filter keep := by
  rw [restrict, names, names, List.filter_map]
  rfl

theorem parent?_restrict (f : Forest) (keep : Text → Bool) (m : Text) :
    (f.restrict keep).parent? m = if keep m then f.parent? m else none := by
  rw [parent?, parent?, node?, node?, restrict, List.find?_filter]
  by_cases hm : keep m
  · rw [if_pos hm]
    congr 2
    funext n
    rw [Bool.eq_iff_iff, decide_eq_true_eq, beq_iff_eq, and_iff_right_iff_imp]
    rintro rfl
    exact hm
  · rw [if_neg hm, List.find?_eq_none.2]
    · rfl
    · intro n _ h
      rw [decide_eq_true_eq, beq_iff_eq] at h
      exact hm (h.2 ▸ h.1)

/-- A part has the parents of the whole and no others. -/
theorem parent?_of_restrict {m p : Text} (h : (f.restrict keep).parent? m = some p) :
    keep m ∧ f.parent? m = some p := by
  rw [parent?_restrict] at h
  split at h
  · rename_i hm
    exact ⟨hm, h⟩
  · cases h

namespace Closed

variable (hkeep : f.Closed keep)

include hkeep

theorem keep_of_lineage {m : Text} {asc : List Text} (h : Lineage f.parent? m asc) : ∀ x ∈ asc, keep x = keep m := by
  induction h with
  | root _ =>
    intro x hx
    rw [List.mem_singleton.1 hx]
  | child hp _ ih =>
    intro x hx
    rcases List.mem_append.1 hx with hx | hx
    · rw [ih x hx, hkeep _ _ hp]
    · rw [List.mem_singleton.1 hx]

theorem sound_restrict (hf : f.Sound) : (f.restrict keep).Sound where
  nodup := by
    rw [names_restrict]
    exact hf.nodup.filter keep
  closed := by
    intro m p h
    obtain ⟨hm, hp⟩ := parent?_of_restrict h
    rw [names_restrict, List.mem_filter, hkeep m p hp]
    exact ⟨hf.closed m p hp, hm⟩
  acyclic := fun m h => hf.acyclic m (h.mono fun _ _ hp => (parent?_of_restrict hp).2)

theorem submeanings_eq (hf : f.Sound) {m : Text} (hm : keep m) :
    (f.restrict keep).submeanings m = f.submeanings m := by
  rw [submeanings, submeanings, restrict, List.filter_filter]
  congr 1
  refine List.filter_congr fun n hn => ?_
  by_cases hp : n.parent = some m
  · have hn' : keep n.name := by
      rw [← hkeep n.name m (by rw [parent?_of_mem hf.nodup hn, hp])]
      exact hm
    simp [hp, hn']
  · simp [hp]

theorem lineage {m : Text} (hm : keep m) {asc : List Text} (h : Lineage f.parent? m asc) :
    Lineage (f.restrict keep).parent? m asc := by
  have hmap : Lineage (f.restrict keep).parent? (id m) (asc.map id) := h.map fun x hx => by
    rw [id, parent?_restrict, hkeep.keep_of_lineage h x hx, if_pos hm, Option.map_id]
    rfl
  rwa [List.map_id] at hmap

/-- The order of depth in a part is that in the whole. -/
theorem byDepth_restrict (hf : f.Sound) {ranked : List (ForestNode × List Text)} (h : f.byDepth = .ok ranked) :
    (f.restrict keep).byDepth = .ok (ranked.filter fun x => keep x.1.name) := by
  obtain ⟨listed, hlisted, h⟩ := bind_eq_ok.1 h
  cases h
  have hpart := mapM_filter (g := fun n => return (n, ← (f.restrict keep).ascending n.name))
    (p := fun n => keep n.name) (q := fun x => keep x.1.name) hlisted ?_ ?_
  · refine bind_eq_ok.2 ⟨_, hpart, ?_⟩
    rw [filter_mergeSort]
    · rfl
    · intro a b c hab hbc
      rw [decide_eq_true_eq] at hab hbc ⊢
      omega
    · intro a b
      rw [Bool.or_eq_true, decide_eq_true_eq, decide_eq_true_eq]
      omega
  · intro n x hx
    obtain ⟨asc, -, hx⟩ := bind_eq_ok.1 hx
    cases hx
    rfl
  · intro n _ hn
    obtain ⟨asc, hasc⟩ := hf.exists_lineage n.name
    rw [hf.ascending_eq hasc, (hkeep.sound_restrict hf).ascending_eq (hkeep.lineage hn hasc)]

theorem topLevel_eq (hf : f.Sound) {m : Text} (hm : keep m) : (f.restrict keep).topLevel m = f.topLevel m := by
  rw [topLevel, topLevel, hkeep.submeanings_eq hf hm]

/-- A part generates no other names. -/
theorem unambiguous (hf : f.Sound) {arena : Text} (h : f.Unambiguous arena) :
    (f.restrict keep).Unambiguous arena := by
  have hmem : ∀ m ∈ (f.restrict keep).names, m ∈ f.names ∧ (f.restrict keep).topLevel m = f.topLevel m := by
    intro m hm
    rw [names_restrict, List.mem_filter] at hm
    exact ⟨hm.1, hkeep.topLevel_eq hf hm.2⟩
  constructor
  · intro m hm n hn
    rw [(hmem m hm).2, (hmem n hn).2]
    exact h.owner m (hmem m hm).1 n (hmem n hn).1
  · intro m hm
    rw [(hmem m hm).2]
    exact h.arena_notMem m (hmem m hm).1
  · intro m hm n hn
    rw [(hmem n hn).2]
    exact h.name_notMem m (hmem m hm).1 n (hmem n hn).1

end Closed

/-! ### Parts of a list of declarations -/

section Declared

variable {arena : Text} {decls : List MeaningDecl} (hkeep : ∀ d ∈ decls, d.parent ≠ [] → keep d.parent = keep d.name)

include hkeep

theorem closed_declared : (declared decls).Closed keep := by
  intro m p h
  rw [parent?, Option.bind_eq_some_iff] at h
  obtain ⟨n, hn, hp⟩ := h
  obtain ⟨hmem, rfl⟩ := node?_eq_some hn
  obtain ⟨d, hd, rfl⟩ := List.mem_map.1 hmem
  rw [attach] at hp
  split at hp
  · rename_i hreg
    cases hp
    exact hkeep d hd hreg.1
  · cases hp

theorem declared_filter : declared (decls.filter fun d => keep d.name) = (declared decls).restrict keep := by
  rw [declared, declared, restrict, List.filter_map]
  congr 1
  refine List.map_congr_left fun d hd => ?_
  rw [List.mem_filter] at hd
  rw [attach, attach]
  congr 1
  -- the parent of a meaning that is kept is kept
  have hparent : d.parent ≠ [] → (decls.filter fun d => keep d.name).any (·.name == d.parent) =
      decls.any (·.name == d.parent) := by
    intro hne
    rw [List.any_filter]
    congr 1
    funext e
    rw [Bool.eq_iff_iff, Bool.and_eq_true, beq_iff_eq, and_iff_right_iff_imp]
    intro he
    rw [he, hkeep d hd.1 hne]
    exact hd.2
  by_cases hne : d.parent = []
  · simp [hne]
  · rw [hparent hne]

theorem Proper.filter (h : Proper arena decls) : Proper arena (decls.filter fun d => keep d.name) where
  nodup := h.nodup.sublist (List.filter_sublist.map _)
  admissible := fun d hd => h.admissible d (List.mem_of_mem_filter hd)
  parents := by
    intro d hd hne
    rw [List.mem_filter] at hd
    obtain ⟨e, he, hname⟩ := List.mem_map.1 (h.parents d hd.1 hne)
    refine List.mem_map.2 ⟨e, List.mem_filter.2 ⟨he, ?_⟩, hname⟩
    rw [hname, hkeep d hd.1 hne]
    exact hd.2
  acyclic := by
    intro m hm hcycle
    rw [declared_filter hkeep] at hcycle
    refine h.acyclic m ?_ (hcycle.mono fun _ _ hp => (parent?_of_restrict hp).2)
    exact (List.filter_sublist.map _).subset hm

end Declared

end Forest

/-! ### Parts of an analysis -/

namespace Analysis

open Code

variable {settings : Settings} {keep : Text → Bool} {a b : Analysis}

/-- `b` is the analysis of a part of the file that `a` is the analysis of. -/
structure Part [Language] (settings : Settings) (keep : Text → Bool) (a b : Analysis) : Prop where
  whole : ofFile settings a.file = .ok a
  part : ofFile settings { a.file with meanings := a.file.meanings.filter fun d => keep d.name } = .ok b
  clean : a.findings = []
  closed : ∀ d ∈ a.file.meanings, d.parent ≠ [] → keep d.parent = keep d.name

namespace Part

variable (h : Part settings keep a b)

include h

theorem complete : a.Complete := (complete_of_ofFile h.whole).1

theorem complete' : b.Complete := (complete_of_ofFile h.part).1

theorem file_eq : b.file = { a.file with meanings := a.file.meanings.filter fun d => keep d.name } :=
  (complete_of_ofFile h.part).2

theorem arena_eq : b.arena = a.arena := by
  rw [arena_of_ofFile h.whole, arena_of_ofFile h.part]
  rfl

theorem package_eq : b.package = a.package := by
  obtain ⟨-, -, -, ha⟩ := exists_ranked h.whole
  obtain ⟨-, -, -, hb⟩ := exists_ranked h.part
  rw [ha, hb]
  rfl

theorem forest_eq : b.forest = a.forest.restrict keep := by
  have hproper := h.complete.proper h.clean
  rw [h.complete'.forest_eq, h.complete.forest_eq, h.arena_eq, h.file_eq, hproper.ofDecls_eq,
    (hproper.filter h.closed).ofDecls_eq, Forest.declared_filter h.closed]

theorem closed_forest : a.forest.Closed keep := by
  rw [h.complete.forest_eq, (h.complete.proper h.clean).ofDecls_eq]
  exact Forest.closed_declared h.closed

/-! ### Profiles -/

/-- Along an ancestry that is kept the profiles are the same. -/
theorem chain_eq {asc : List Text} {ps ps' : List Profile} (hkeep : ∀ m ∈ asc, keep m) (hps : a.Chain asc ps)
    (hps' : b.Chain asc ps') : ps' = ps := by
  have hnode : ∀ n ∈ a.forest.nodes, ∀ n' ∈ b.forest.nodes, n.name = n'.name → n = n' := by
    intro n hn n' hn'
    rw [h.forest_eq] at hn'
    exact List.inj_on_of_nodup_map h.complete.sound.nodup hn (List.mem_of_mem_filter hn')
  have hsame := hps.rel (R := Eq) hps' hnode fun us us' n heq _ hn _ => by
    rw [List.forall₂_eq_eq_eq] at heq
    rw [heq, h.forest_eq, h.closed_forest.submeanings_eq h.complete.sound (hkeep n.name hn)]
  rw [List.forall₂_eq_eq_eq] at hsame
  exact hsame.symm

theorem mem_names {m : Text} (hm : m ∈ a.forest.names) (hk : keep m) : m ∈ b.forest.names := by
  rw [h.forest_eq, Forest.names_restrict]
  exact List.mem_filter.2 ⟨hm, hk⟩

/-- A meaning that is kept has the same chain of profiles. -/
theorem chain {p : Profile} (hp : p ∈ a.profiles) (hk : keep p.name) {ps : List Profile}
    (hps : a.Chain p.ascending ps) : b.Chain p.ascending ps := by
  obtain ⟨-, -, hasc, -⟩ := h.complete.exists_root hp
  have hasc' : Lineage b.forest.parent? p.name p.ascending := by
    rw [h.forest_eq]
    exact h.closed_forest.lineage hk hasc
  obtain ⟨ps', hps'⟩ := h.complete'.exists_chain (h.mem_names (h.complete.name_mem hp) hk) hasc'
  have hkeep : ∀ m ∈ p.ascending, keep m := by
    intro m hm
    rw [h.closed_forest.keep_of_lineage hasc m hm]
    exact hk
  exact h.chain_eq hkeep hps hps' ▸ hps'

theorem profile_eq {m : Text} (hm : m ∈ a.forest.names) (hk : keep m) : b.profile m = a.profile m := by
  obtain ⟨p, hp⟩ := h.complete.exists_profile hm
  obtain ⟨hmem, rfl⟩ := mem_of_find hp
  obtain ⟨root, below, -, hchain, hlast⟩ := h.complete.exists_root hmem
  rw [hp]
  exact h.complete'.profile_name ((h.chain hmem hk hchain).mem_profiles hlast)

/-- The profiles of a part are those of the whole, in the same order. -/
theorem profiles_eq : b.profiles = a.profiles.filter fun p => keep p.name := by
  obtain ⟨ranked, hranked, hnames, -⟩ := exists_ranked h.whole
  obtain ⟨ranked', hranked', hnames', -⟩ := exists_ranked h.part
  rw [h.forest_eq, h.closed_forest.byDepth_restrict h.complete.sound hranked] at hranked'
  cases hranked'
  have hfilter : b.profiles.map (·.name) = (a.profiles.map (·.name)).filter keep := by
    rw [hnames', hnames, List.filter_map]
    rfl
  -- each list is what is found for its names
  have hall : (a.profiles.map (·.name)).mapM a.profile = .ok a.profiles := by
    rw [mapM_eq_ok_iff, List.forall₂_map_left_iff, List.forall₂_same]
    exact fun p hp => h.complete.profile_name hp
  have hall' : (b.profiles.map (·.name)).mapM b.profile = .ok b.profiles := by
    rw [mapM_eq_ok_iff, List.forall₂_map_left_iff, List.forall₂_same]
    exact fun p hp => h.complete'.profile_name hp
  have hpart := mapM_filter (g := b.profile) (p := keep) (q := fun p => keep p.name) hall
    (fun m p hp => by rw [(mem_of_find hp).2])
    (fun m hm hk => h.profile_eq (h.complete.perm.mem_iff.1 hm) hk)
  rw [← hfilter, hall'] at hpart
  exact Except.ok.inj hpart

/-- A part of a file without findings has none. -/
theorem findings_eq_nil : b.findings = [] := by
  obtain ⟨hproper, hunambiguous, hprofiles⟩ := h.complete.findings_eq_nil_iff.1 h.clean
  rw [h.complete'.findings_eq_nil_iff, h.arena_eq, h.file_eq, h.forest_eq, h.profiles_eq]
  refine ⟨hproper.filter h.closed, h.closed_forest.unambiguous h.complete.sound hunambiguous, ?_⟩
  exact fun p hp => hprofiles p (List.mem_of_mem_filter hp)

/-! ### Overrides and code -/

/-- A method is overridden below its owner only. -/
theorem keep_owner {p : Profile} (hp : p ∈ a.profiles) {o : Override} (ho : o ∈ p.overrides) :
    keep o.base.owner = keep p.name := by
  obtain ⟨asc, us, hasc, hchain⟩ := h.complete.exists_chain_of_mem hp
  obtain ⟨q, hq, hbase, -⟩ := hchain.exists_base rfl ho
  rw [hchain.owner_eq (by simp [hq]) hbase]
  refine h.closed_forest.keep_of_lineage hasc q.name ?_
  rw [← hchain.names_eq]
  exact List.mem_map_of_mem (by simp [hq])

/-- The overrides of a method that is kept are kept, in their order. -/
theorem overridesOf_eq {owner : Text} (hk : keep owner) (n : Text) : b.overridesOf owner n = a.overridesOf owner n := by
  have hnone : ∀ p ∈ a.profiles, keep p.name = false →
      (p.overrides.filter fun o => o.base.owner == owner && o.base.name == n) = [] := by
    intro p hp hnot
    rw [List.filter_eq_nil_iff]
    intro o ho hbase
    rw [Bool.and_eq_true, beq_iff_eq] at hbase
    rw [← h.keep_owner hp ho, hbase.1, hk] at hnot
    cases hnot
  rw [overridesOf, overridesOf, h.profiles_eq, flatMap_filter hnone]

/-- The code of a meaning that is kept is the same. -/
theorem meaningCode_eq {p : Profile} (hp : p ∈ a.profiles) (hk : keep p.name) :
    b.meaningCode p = a.meaningCode p := by
  obtain ⟨root, below, -, hchain, -⟩ := h.complete.exists_root hp
  have hmethods : b.methodCode p = a.methodCode p := by
    funext f
    rw [methodCode, methodCode, overrideTree, overrideTree, h.overridesOf_eq hk]
  rw [meaningCode, meaningCode, hchain.profiles, (h.chain hp hk hchain).profiles, h.package_eq, h.arena_eq, hmethods]

/-- The generated file of a part has the same code for its meanings and otherwise no code. -/
theorem exists_fileCode {code : FileCode} (hcode : a.fileCode settings = .ok code) :
    b.fileCode settings = .ok { code with meanings := code.meanings.filter fun c => keep c.handle.meaning } := by
  obtain ⟨ps, hps, hcode⟩ := bind_eq_ok.1 hcode
  obtain ⟨meanings, hmeanings, hcode⟩ := bind_eq_ok.1 hcode
  cases hcode
  have hdeclared : b.declared = .ok (ps.filter fun p => keep p.name) := by
    rw [declared, h.forest_eq, Forest.names_restrict]
    exact mapM_filter hps (fun m p hp => by rw [(mem_of_find hp).2]) fun m hm hk => h.profile_eq hm hk
  have hpart := mapM_filter (g := b.meaningCode) (p := fun p => keep p.name)
    (q := fun c => keep c.handle.meaning) hmeanings (fun p c hc => by rw [meaningCode_handle hc])
    fun p hp hk => by
      obtain ⟨m, -, hm⟩ := mem_of_mapM_ok hps hp
      exact h.meaningCode_eq (mem_of_find hm).1 hk
  refine bind_eq_ok.2 ⟨_, hdeclared, bind_eq_ok.2 ⟨_, hpart, ?_⟩⟩
  rw [h.file_eq, h.package_eq, h.arena_eq]
  rfl

end Part

end Analysis

end MeaningForest

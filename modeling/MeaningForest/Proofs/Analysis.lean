import MeaningForest.Analysis.Basic
import MeaningForest.Proofs.Faultless
import MeaningForest.Proofs.Forest
import MeaningForest.Proofs.Profile
import Mathlib.Data.List.Induction

/-!
# The analysis of a file

Every declaration file can be analysed (`exists_ofFile`): profiles are made in order of depth, so those of the
ancestors of a meaning are always there.  The result is complete (`Complete`, `complete_of_ofFile`): it has one profile
for each registered meaning, made from the profiles of the ancestors.

Along an ancestry the profiles form a chain (`Complete.exists_chain`): each is made from those before it.  This is the
form in which the later results use an analysis.
-/

namespace MeaningForest

variable {lang : Language}

/-! ### The order of depth -/

namespace Forest

/-- All meanings, each with its lineage, shorter lineages first. -/
structure Ranked (f : Forest) (ranked : List (ForestNode × List Text)) : Prop where
  perm : (ranked.map Prod.fst).Perm f.nodes
  lineage : ∀ x ∈ ranked, Lineage f.parent? x.1.name x.2
  sorted : ranked.Pairwise (fun x y => x.2.length ≤ y.2.length)

theorem Sound.exists_byDepth {f : Forest} (hf : f.Sound) : ∃ ranked, f.byDepth = .ok ranked ∧ f.Ranked ranked := by
  have hrank : ∀ n ∈ f.nodes, ∃ x : ForestNode × List Text, (do return (n, ← f.ascending n.name)) = Except.ok x := by
    intro n _
    obtain ⟨l, hl⟩ := hf.exists_lineage n.name
    exact ⟨(n, l), by rw [hf.ascending_eq hl]; rfl⟩
  obtain ⟨ranked, hranked⟩ := exists_mapM_ok hrank
  have hpair : ∀ (n : ForestNode) (x : ForestNode × List Text),
      (do return (n, ← f.ascending n.name)) = Except.ok x → x.1 = n ∧ f.ascending n.name = .ok x.2 := by
    intro n x hx
    obtain ⟨l, hl, he⟩ := bind_eq_ok.1 hx
    cases he
    exact ⟨rfl, hl⟩
  refine ⟨ranked.mergeSort fun a b => a.2.length ≤ b.2.length, by rw [byDepth, hranked]; rfl, ?_, ?_, ?_⟩
  · have hfst : ranked.map Prod.fst = f.nodes := map_eq_of_mapM_ok (fun n x hx => (hpair n x hx).1) hranked
    exact ((List.mergeSort_perm _ _).map Prod.fst).trans (hfst ▸ List.Perm.refl _)
  · intro x hx
    obtain ⟨n, -, hn⟩ := mem_of_mapM_ok hranked (List.mem_mergeSort.1 hx)
    obtain ⟨hfst, hasc⟩ := hpair n x hn
    rw [hfst]
    exact lineage_of_ascending hasc
  · have hsorted : (ranked.mergeSort fun a b => a.2.length ≤ b.2.length).Pairwise
        (fun a b => decide (a.2.length ≤ b.2.length) = true) :=
      List.pairwise_mergeSort (by intro a b c; simp; omega) (by intro a b; simp; omega) ranked
    exact hsorted.imp (by simp)

namespace Ranked

variable {f : Forest} {ranked : List (ForestNode × List Text)}

theorem names_perm (h : f.Ranked ranked) : (ranked.map (·.1.name)).Perm f.names := by
  simpa [names, Function.comp_def] using h.perm.map ForestNode.name

/-- The ancestors of a meaning have shorter lineages, so they stand before it. -/
theorem ancestor_before (h : f.Ranked ranked) (hf : f.Sound) {done todo : List (ForestNode × List Text)}
    {x : ForestNode × List Text} (hsplit : ranked = done ++ x :: todo) {a : Text} (ha : a ∈ x.2.dropLast) :
    a ∈ done.map (·.1.name) := by
  have hx : x ∈ ranked := by rw [hsplit]; simp
  have hxlin := h.lineage x hx
  have hxname : x.1.name ∈ f.names := h.names_perm.mem_iff.1 (List.mem_map.2 ⟨x, hx, rfl⟩)
  have haname := hf.mem_names_of_lineage hxlin (List.mem_of_mem_dropLast ha) hxname
  obtain ⟨y, hy, rfl⟩ := List.mem_map.1 (h.names_perm.mem_iff.2 haname)
  have hlen : y.2.length < x.2.length := by
    obtain ⟨u, v, huv⟩ := List.append_of_mem ha
    have hcut : x.2 = u ++ y.1.name :: (v ++ [x.1.name]) := by
      rw [← hxlin.dropLast_append, huv]
      simp
    rw [(h.lineage y hy).unique (hcut ▸ hxlin).of_append_cons, hcut]
    simp
  rw [hsplit, List.mem_append, List.mem_cons] at hy
  rcases hy with hy | rfl | hy
  · exact List.mem_map.2 ⟨y, hy, rfl⟩
  · omega
  · have hsorted := h.sorted
    rw [hsplit, List.pairwise_append, List.pairwise_cons] at hsorted
    have := hsorted.2.1.1 y hy
    omega

end Ranked

end Forest

namespace Analysis

/-! ### Making the profiles -/

theorem find_eq_ok {profiles : List Profile} {m : Text} {p : Profile} :
    find profiles m = .ok p ↔ profiles.find? (·.name == m) = some p := by
  rw [find]
  cases profiles.find? (·.name == m) <;> simp

theorem mem_of_find {profiles : List Profile} {m : Text} {p : Profile} (h : find profiles m = .ok p) :
    p ∈ profiles ∧ p.name = m := by
  have h := find_eq_ok.1 h
  exact ⟨List.mem_of_find?_eq_some h, by simpa using List.find?_some h⟩

/-- Profiles that were found are found when there are more. -/
theorem find_append {profiles : List Profile} {m : Text} {p : Profile} (h : find profiles m = .ok p)
    (more : List Profile) : find (profiles ++ more) m = .ok p := by
  rw [find_eq_ok] at h ⊢
  rw [List.find?_append, h]
  rfl

theorem exists_find {profiles : List Profile} {m : Text} (h : m ∈ profiles.map (·.name)) :
    ∃ p, find profiles m = .ok p := by
  obtain ⟨p, hp, rfl⟩ := List.mem_map.1 h
  cases hf : profiles.find? (·.name == p.name) with
  | none => exact absurd (List.find?_eq_none.1 hf p hp) (by simp)
  | some q => exact ⟨q, find_eq_ok.2 hf⟩

/-- The profile of a meaning is there, and it was made from the profiles of its ancestors. -/
def Made [Language] (f : Forest) (profiles : List Profile) (x : ForestNode × List Text) : Prop :=
  ∃ above, x.2.dropLast.mapM (find profiles) = .ok above ∧
    find profiles x.1.name = .ok (Profile.ofDecl above x.1.decl x.2 (f.submeanings x.1.name))

theorem Made.append {f : Forest} {profiles : List Profile} {x : ForestNode × List Text} (h : Made f profiles x)
    (more : List Profile) : Made f (profiles ++ more) x := by
  obtain ⟨above, habove, hx⟩ := h
  refine ⟨above, ?_, find_append hx more⟩
  exact mapM_eq_ok_iff.2 ((mapM_eq_ok_iff.1 habove).imp fun _ _ h => find_append h more)

/-- One step makes the profile of a meaning if those of its ancestors are made and its own is not. -/
theorem exists_step {f : Forest} {made : List Profile} {x : ForestNode × List Text}
    (habove : ∀ a ∈ x.2.dropLast, a ∈ made.map (·.name)) (hnew : x.1.name ∉ made.map (·.name)) :
    ∃ p, step f made x = .ok (made ++ [p]) ∧ p.name = x.1.name ∧ Made f (made ++ [p]) x := by
  obtain ⟨above, ha⟩ := exists_mapM_ok fun a ha => exists_find (habove a ha)
  let p := Profile.ofDecl above x.1.decl x.2 (f.submeanings x.1.name)
  have hp : p.name = x.1.name := Profile.ofDecl_name above _ _ _
  refine ⟨p, by rw [step, ha]; rfl, hp, above, ?_, ?_⟩
  · exact mapM_eq_ok_iff.2 ((mapM_eq_ok_iff.1 ha).imp fun _ _ h => find_append h [p])
  · rw [find_eq_ok, List.find?_append, List.find?_eq_none.2, Option.none_or, List.find?_singleton]
    · simp [hp, p]
    · intro q hq
      have hne : q.name ≠ x.1.name := fun he => hnew (he ▸ List.mem_map_of_mem hq)
      simpa using hne

/-- The profiles of the ancestors of a meaning stand before its own. -/
def Descending (f : Forest) (profiles : List Profile) : Prop :=
  ∀ done p todo asc, profiles = done ++ p :: todo → Lineage f.parent? p.name asc →
    ∀ m ∈ asc.dropLast, m ∈ done.map (·.name)

theorem descending_of_ranked {f : Forest} (hf : f.Sound) {ranked : List (ForestNode × List Text)}
    (hranked : f.Ranked ranked) {profiles : List Profile} (hnames : profiles.map (·.name) = ranked.map (·.1.name)) :
    Descending f profiles := by
  intro done p todo asc hsplit hasc m hm
  rw [hsplit, List.map_append, List.map_cons] at hnames
  obtain ⟨done', rest, hcut, hdone, hrest⟩ := List.map_eq_append_iff.1 hnames.symm
  obtain ⟨x, todo', rfl, hx, -⟩ := List.map_eq_cons_iff.1 hrest
  rw [← hx] at hasc
  rw [hasc.unique (hranked.lineage x (by rw [hcut]; simp))] at hm
  rw [← hdone]
  exact hranked.ancestor_before hf hcut hm

/-- In order of depth the profiles of all meanings of a sound forest can be made. -/
theorem exists_profiles {f : Forest} (hf : f.Sound) : ∃ ranked profiles, f.byDepth = .ok ranked ∧
    ranked.foldlM (step f) [] = .ok profiles ∧ (profiles.map (·.name)).Perm f.names ∧ Descending f profiles ∧
    ∀ n ∈ f.nodes, ∀ asc, Lineage f.parent? n.name asc → Made f profiles (n, asc) := by
  obtain ⟨ranked, hbyDepth, hranked⟩ := hf.exists_byDepth
  have hnodup : (ranked.map (·.1.name)).Nodup := hranked.names_perm.nodup_iff.2 hf.nodup
  have hstep : ∀ done x todo made, ranked = done ++ x :: todo →
      made.map (·.name) = done.map (·.1.name) ∧ (∀ y ∈ done, Made f made y) →
      ∃ made', step f made x = .ok made' ∧
        made'.map (·.name) = (done ++ [x]).map (·.1.name) ∧ ∀ y ∈ done ++ [x], Made f made' y := by
    intro done x todo made hsplit ⟨hdone, hmade⟩
    have hnew : x.1.name ∉ made.map (·.name) := by
      rw [hsplit, List.map_append, List.map_cons] at hnodup
      rw [hdone]
      exact notMem_of_nodup hnodup
    have habove : ∀ a ∈ x.2.dropLast, a ∈ made.map (·.name) := by
      intro a ha
      rw [hdone]
      exact hranked.ancestor_before hf hsplit ha
    obtain ⟨p, hp, hpname, hpmade⟩ := exists_step (f := f) habove hnew
    refine ⟨made ++ [p], hp, by simp [hdone, hpname], ?_⟩
    intro y hy
    rcases List.mem_append.1 hy with hy | hy
    · exact (hmade y hy).append [p]
    · exact List.mem_singleton.1 hy ▸ hpmade
  obtain ⟨profiles, hrun, hdone, hmade⟩ := exists_foldlM_ok hstep (s := []) ⟨rfl, by simp⟩
  refine ⟨ranked, profiles, hbyDepth, hrun, hdone ▸ hranked.names_perm, descending_of_ranked hf hranked hdone, ?_⟩
  intro n hn asc hasc
  obtain ⟨x, hx, rfl⟩ := List.mem_map.1 (hranked.perm.mem_iff.2 hn)
  obtain rfl := hasc.unique (hranked.lineage x hx)
  exact hmade x hx

/-! ### The analysis -/

/-- The arena type of a file: its own, or the one of the settings. -/
def arenaOf (settings : Settings) (file : DeclFile) : Text :=
  if file.arena.isEmpty then settings.arena else file.arena

/-- What an analysis is: a sound forest of the registered meanings and a profile for each of them. -/
structure Complete [Language] (a : Analysis) : Prop where
  forest_eq : a.forest = (Forest.ofDecls a.arena a.file.meanings).1
  findings_eq : a.findings =
    (Forest.ofDecls a.arena a.file.meanings).2 ++ a.forest.nameFindings a.arena ++ a.profiles.flatMap (·.findings)
  perm : (a.profiles.map (·.name)).Perm a.forest.names
  descending : Descending a.forest a.profiles
  made : ∀ n ∈ a.forest.nodes, ∀ asc, Lineage a.forest.parent? n.name asc → Made a.forest a.profiles (n, asc)

/-- The analysis of a file, given the profiles. -/
def assemble [Language] (settings : Settings) (file : DeclFile) (profiles : List Profile) : Analysis :=
  let made := Forest.ofDecls (arenaOf settings file) file.meanings
  { file, package := if file.package.isEmpty then settings.package else file.package
    arena := arenaOf settings file, forest := made.1, profiles
    findings := made.2 ++ made.1.nameFindings (arenaOf settings file) ++ profiles.flatMap (·.findings) }

theorem ofFile_eq_ok {settings : Settings} {file : DeclFile} {ranked : List (ForestNode × List Text)}
    {profiles : List Profile} (hranked : (Forest.ofDecls (arenaOf settings file) file.meanings).1.byDepth = .ok ranked)
    (hprofiles : ranked.foldlM (step (Forest.ofDecls (arenaOf settings file) file.meanings).1) [] = .ok profiles) :
    ofFile settings file = .ok (assemble settings file profiles) :=
  bind_eq_ok.2 ⟨ranked, hranked, bind_eq_ok.2 ⟨profiles, hprofiles, rfl⟩⟩

/-- Every declaration file can be analysed, and its analysis is complete. -/
theorem exists_ofFile (settings : Settings) (file : DeclFile) :
    ∃ a, ofFile settings file = .ok a ∧ a.file = file ∧ a.arena = arenaOf settings file ∧ a.Complete := by
  obtain ⟨ranked, profiles, hranked, hprofiles, hperm, hdescending, hmade⟩ :=
    exists_profiles (Forest.ofDecls_sound (arenaOf settings file) file.meanings)
  exact ⟨_, ofFile_eq_ok hranked hprofiles, rfl, rfl, rfl, rfl, hperm, hdescending, hmade⟩

theorem complete_of_ofFile {settings : Settings} {file : DeclFile} {a : Analysis}
    (h : ofFile settings file = .ok a) : a.Complete ∧ a.file = file := by
  obtain ⟨b, hb, hfile, -, hcomplete⟩ := exists_ofFile settings file
  rw [h] at hb
  cases hb
  exact ⟨hcomplete, hfile⟩

theorem arena_of_ofFile {settings : Settings} {file : DeclFile} {a : Analysis} (h : ofFile settings file = .ok a) :
    a.arena = arenaOf settings file := by
  obtain ⟨b, hb, -, harena, -⟩ := exists_ofFile settings file
  rw [h] at hb
  cases hb
  exact harena

/-- The profiles of an analysis are made in order of depth. -/
theorem exists_ranked {settings : Settings} {file : DeclFile} {a : Analysis} (h : ofFile settings file = .ok a) :
    ∃ ranked, a.forest.byDepth = .ok ranked ∧ a.profiles.map (·.name) = ranked.map (·.1.name) ∧
      a = assemble settings file a.profiles := by
  obtain ⟨ranked, hranked, h⟩ := bind_eq_ok.1 h
  obtain ⟨profiles, hprofiles, h⟩ := bind_eq_ok.1 h
  cases h
  refine ⟨ranked, hranked, ?_, rfl⟩
  refine foldlM_keeps (P := fun done made => made.map (·.name) = done.map (·.1.name)) ?_ rfl hprofiles
  intro done x todo made made' _ hmade hstep
  obtain ⟨above, -, hstep⟩ := bind_eq_ok.1 hstep
  cases hstep
  simp [hmade, ForestNode.name]

theorem forest_of_ofFile {settings : Settings} {file : DeclFile} {a : Analysis} (h : ofFile settings file = .ok a) :
    a.forest = (Forest.ofDecls (arenaOf settings file) file.meanings).1 := by
  obtain ⟨ha, hfile⟩ := complete_of_ofFile h
  rw [ha.forest_eq, arena_of_ofFile h, hfile]

/-- Whether a file that declares parents first has no findings.  Sorting does not change its order of meanings, so
this can be evaluated. -/
def cleanInOrder [Language] (settings : Settings) (file : DeclFile) : Bool :=
  let made := Forest.ofDecls (arenaOf settings file) file.meanings
  match made.1.nodes.mapM fun n => return (n, ← made.1.ascending n.name) with
  | .error _ => false
  | .ok ranked =>
    match ranked.foldlM (step made.1) [] with
    | .error _ => false
    | .ok profiles =>
      decide (ranked.Pairwise fun x y => x.2.length ≤ y.2.length) &&
        (made.2 ++ made.1.nameFindings (arenaOf settings file) ++ profiles.flatMap (·.findings)).isEmpty

theorem exists_clean {settings : Settings} {file : DeclFile} (h : cleanInOrder settings file) :
    ∃ a, ofFile settings file = .ok a ∧ a.findings = [] := by
  simp only [cleanInOrder] at h
  split at h
  · cases h
  · rename_i ranked hranked
    split at h
    · cases h
    · rename_i profiles hprofiles
      rw [Bool.and_eq_true, decide_eq_true_eq, List.isEmpty_iff] at h
      have hsort : ranked.mergeSort (fun x y => x.2.length ≤ y.2.length) = ranked :=
        List.mergeSort_of_pairwise (h.1.imp (by simp))
      have hbyDepth : (Forest.ofDecls (arenaOf settings file) file.meanings).1.byDepth = .ok ranked := by
        rw [Forest.byDepth, hranked]
        exact congrArg Except.ok hsort
      exact ⟨_, ofFile_eq_ok hbyDepth hprofiles, h.2⟩

namespace Complete

variable {a : Analysis}

theorem sound (ha : a.Complete) : a.forest.Sound := by
  rw [ha.forest_eq]
  exact Forest.ofDecls_sound _ _

/-- Without findings every declared meaning is registered. -/
theorem decls_eq (ha : a.Complete) (hclean : a.findings = []) : a.forest.nodes.map (·.decl) = a.file.meanings := by
  rw [ha.findings_eq, List.append_eq_nil_iff, List.append_eq_nil_iff] at hclean
  rw [ha.forest_eq]
  exact Forest.decls_of_clean hclean.1.1

theorem findings_profile (ha : a.Complete) (hclean : a.findings = []) {p : Profile} (hp : p ∈ a.profiles) :
    p.findings = [] := by
  rw [ha.findings_eq, List.append_eq_nil_iff, List.flatMap_eq_nil_iff] at hclean
  exact hclean.2 p hp

theorem name_mem (ha : a.Complete) {p : Profile} (hp : p ∈ a.profiles) : p.name ∈ a.forest.names :=
  ha.perm.mem_iff.1 (List.mem_map_of_mem hp)

theorem exists_profile (ha : a.Complete) {m : Text} (hm : m ∈ a.forest.names) : ∃ p, a.profile m = .ok p :=
  exists_find (ha.perm.mem_iff.2 hm)

theorem profile_unique (ha : a.Complete) {p q : Profile} (hp : p ∈ a.profiles) (hq : q ∈ a.profiles)
    (hname : p.name = q.name) : p = q :=
  List.inj_on_of_nodup_map (ha.perm.nodup_iff.2 ha.sound.nodup) hp hq hname

/-- A profile is found by its name. -/
theorem profile_name (ha : a.Complete) {p : Profile} (hp : p ∈ a.profiles) : a.profile p.name = .ok p := by
  obtain ⟨q, hq⟩ := exists_find (List.mem_map_of_mem hp : p.name ∈ a.profiles.map (·.name))
  obtain ⟨hmem, hname⟩ := mem_of_find hq
  obtain rfl := ha.profile_unique hmem hp hname
  exact hq

end Complete

/-! ### Chains of profiles -/

/-- The profiles along an ancestry: each is made from those before it. -/
structure Chain [Language] (a : Analysis) (asc : List Text) (ps : List Profile) : Prop where
  profiles : asc.mapM a.profile = .ok ps
  made : ∀ us p vs, ps = us ++ p :: vs → ∃ n ∈ a.forest.nodes,
    p = Profile.ofDecl us n.decl (us.map (·.name) ++ [n.name]) (a.forest.submeanings n.name)

namespace Chain

variable {a : Analysis} {asc : List Text} {ps : List Profile}

theorem names_eq (h : a.Chain asc ps) : ps.map (·.name) = asc :=
  map_eq_of_mapM_ok (fun _ _ hp => (mem_of_find hp).2) h.profiles

theorem mem_profiles (h : a.Chain asc ps) {p : Profile} (hp : p ∈ ps) : p ∈ a.profiles := by
  obtain ⟨m, -, hm⟩ := mem_of_mapM_ok h.profiles hp
  exact (mem_of_find hm).1

theorem consistent (h : a.Chain asc ps) {us vs : List Profile} {p : Profile} (hps : ps = us ++ p :: vs) :
    p.Consistent us := by
  obtain ⟨n, -, rfl⟩ := h.made us p vs hps
  exact Profile.ofDecl_consistent _ _ _

theorem ascending_eq (h : a.Chain asc ps) {us vs : List Profile} {p : Profile} (hps : ps = us ++ p :: vs) :
    p.ascending = (us ++ [p]).map (·.name) := by
  obtain ⟨n, -, rfl⟩ := h.made us p vs hps
  simp [ForestNode.name]

end Chain

/-- Along every ancestry there is a chain of profiles. -/
theorem Complete.exists_chain {a : Analysis} (ha : a.Complete) {m : Text} {asc : List Text} (hm : m ∈ a.forest.names)
    (hasc : Lineage a.forest.parent? m asc) : ∃ ps, a.Chain asc ps := by
  have hmem : ∀ x ∈ asc, x ∈ a.forest.names := fun x hx => ha.sound.mem_names_of_lineage hasc hx hm
  obtain ⟨ps, hps⟩ := exists_mapM_ok fun x hx => ha.exists_profile (hmem x hx)
  refine ⟨ps, hps, ?_⟩
  intro us p vs hsplit
  have hnames : ps.map (·.name) = asc := map_eq_of_mapM_ok (fun _ _ hp => (mem_of_find hp).2) hps
  rw [hsplit, List.map_append, List.map_cons] at hnames
  -- the ancestry of `p` is the part of `asc` up to its name
  have hlin : Lineage a.forest.parent? p.name (us.map (·.name) ++ [p.name]) := (hnames ▸ hasc).of_append_cons
  obtain ⟨n, hn, hname⟩ := Forest.exists_node (hmem p.name (by rw [← hnames]; simp))
  rw [← hname] at hlin
  obtain ⟨above, habove, hfind⟩ := ha.made n hn _ hlin
  have hus : (us.map (·.name)).mapM (find a.profiles) = .ok us := by
    rw [mapM_eq_ok_iff, List.forall₂_map_left_iff, List.forall₂_same]
    intro q hq
    obtain ⟨x, -, hx⟩ := mem_of_mapM_ok hps (by rw [hsplit]; simp [hq] : q ∈ ps)
    exact ha.profile_name (mem_of_find hx).1
  have hab : above = us := by
    simp only [List.dropLast_concat] at habove
    rw [hus] at habove
    cases habove
    rfl
  obtain ⟨x, -, hx⟩ := mem_of_mapM_ok hps (by rw [hsplit]; simp : p ∈ ps)
  have hp : find a.profiles n.name = .ok p := by rw [hname]; exact ha.profile_name (mem_of_find hx).1
  rw [hfind, hab] at hp
  cases hp
  exact ⟨n, hn, rfl⟩

/-- A chain without its last profile is a chain. -/
theorem Chain.exists_init {a : Analysis} {asc : List Text} {m : Text} {ps : List Profile}
    (h : a.Chain (asc ++ [m]) ps) : ∃ us p, ps = us ++ [p] ∧ a.Chain asc us := by
  have hprofiles := h.profiles
  rw [List.mapM_append] at hprofiles
  obtain ⟨us, hus, hrest⟩ := bind_eq_ok.1 hprofiles
  obtain ⟨vs, hvs, he⟩ := bind_eq_ok.1 hrest
  obtain ⟨p, hp, hv⟩ := bind_eq_ok.1 (List.mapM_cons (f := a.profile) ▸ hvs)
  cases hv
  cases he
  refine ⟨us, p, rfl, hus, fun ws q vs hsplit => ?_⟩
  exact h.made ws q (vs ++ [p]) (by rw [hsplit]; simp)

/-- Along an ancestry that two analyses share, what making a profile keeps relates their profiles. -/
theorem Chain.rel {a a' : Analysis} {R : Profile → Profile → Prop} {asc : List Text} {ps ps' : List Profile}
    (h : a.Chain asc ps) (h' : a'.Chain asc ps')
    (hnode : ∀ n ∈ a.forest.nodes, ∀ n' ∈ a'.forest.nodes, n.name = n'.name → n = n')
    (hstep : ∀ us us' (n : ForestNode), List.Forall₂ R us us' → us'.map (·.name) = us.map (·.name) → n.name ∈ asc →
      Profile.ofDecl us n.decl (us.map (·.name) ++ [n.name]) (a.forest.submeanings n.name) ∈ ps →
      R (Profile.ofDecl us n.decl (us.map (·.name) ++ [n.name]) (a.forest.submeanings n.name))
        (Profile.ofDecl us' n.decl (us.map (·.name) ++ [n.name]) (a'.forest.submeanings n.name))) :
    List.Forall₂ R ps ps' := by
  induction asc using List.reverseRecOn generalizing ps ps' with
  | nil =>
    obtain rfl : ps = [] := by simpa using h.names_eq
    obtain rfl : ps' = [] := by simpa using h'.names_eq
    exact .nil
  | append_singleton asc m ih =>
    obtain ⟨us, p, rfl, hus⟩ := h.exists_init
    obtain ⟨us', p', rfl, hus'⟩ := h'.exists_init
    have hrel := ih hus hus' fun ws ws' n hws hnames hn hmem =>
      hstep ws ws' n hws hnames (List.mem_append_left _ hn) (List.mem_append_left _ hmem)
    have hlast : p.name = m ∧ p'.name = m := by
      have hm := h.names_eq
      have hm' := h'.names_eq
      rw [List.map_append] at hm hm'
      exact ⟨by simpa using (List.append_inj' hm rfl).2, by simpa using (List.append_inj' hm' rfl).2⟩
    obtain ⟨n, hn, rfl⟩ := h.made us p [] rfl
    obtain ⟨n', hn', rfl⟩ := h'.made us' p' [] rfl
    rw [Profile.ofDecl_name, Profile.ofDecl_name] at hlast
    -- both profiles belong to one declaration
    obtain rfl : n = n' := hnode n hn n' hn' (hlast.1.trans hlast.2.symm)
    have hnames : us'.map (·.name) = us.map (·.name) := by rw [hus.names_eq, hus'.names_eq]
    refine List.rel_append hrel (.cons ?_ .nil)
    rw [hnames]
    refine hstep us us' n hrel hnames ?_ (by simp)
    rw [ForestNode.name, hlast.1]
    simp

/-- Every profile ends the chain along its own ancestry. -/
theorem Complete.exists_chain_of_mem {a : Analysis} (ha : a.Complete) {p : Profile} (hp : p ∈ a.profiles) :
    ∃ asc us, Lineage a.forest.parent? p.name asc ∧ a.Chain asc (us ++ [p]) := by
  have hm : p.name ∈ a.forest.names := ha.name_mem hp
  obtain ⟨asc, hasc⟩ := ha.sound.exists_lineage p.name
  obtain ⟨ps, hps⟩ := ha.exists_chain hm hasc
  obtain ⟨r, rfl⟩ := hasc.exists_eq_append
  have hnames := hps.names_eq
  rcases List.eq_nil_or_concat ps with rfl | ⟨us, q, rfl⟩
  · simp at hnames
  · rw [List.concat_eq_append] at hps hnames
    rw [List.map_append] at hnames
    have hq : q.name = p.name := by simpa using (List.append_inj' hnames rfl).2
    obtain rfl := ha.profile_unique (hps.mem_profiles (by simp)) hp hq
    exact ⟨_, us, hasc, hps⟩

/-! ### Profiles and declarations -/

namespace Complete

variable {a : Analysis}

theorem exists_ofDecl (ha : a.Complete) {p : Profile} (hp : p ∈ a.profiles) :
    ∃ n ∈ a.forest.nodes, ∃ above asc subs, p = Profile.ofDecl above n.decl asc subs := by
  obtain ⟨asc, us, -, hchain⟩ := ha.exists_chain_of_mem hp
  obtain ⟨n, hn, he⟩ := hchain.made us p [] rfl
  exact ⟨n, hn, _, _, _, he⟩

theorem submeanings_eq (ha : a.Complete) {p : Profile} (hp : p ∈ a.profiles) :
    p.submeanings = a.forest.submeanings p.name := by
  obtain ⟨asc, us, -, hchain⟩ := ha.exists_chain_of_mem hp
  obtain ⟨n, -, rfl⟩ := hchain.made us p [] rfl
  simp [ForestNode.name]

/-- Without findings a profile has the declaration of its meaning, and all of its fields, methods and overrides. -/
theorem profile_clean (ha : a.Complete) (hclean : a.findings = []) {p : Profile} (hp : p ∈ a.profiles) :
    p.decl ∈ a.file.meanings ∧ p.fields = p.decl.fields.map Profile.slotOf ∧
      p.methods.map (·.decl) = p.decl.methods.filter (!·.isOverride) ∧
      p.overrides.map (·.decl) = p.decl.methods.filter (·.isOverride) := by
  obtain ⟨n, hn, above, asc, subs, rfl⟩ := ha.exists_ofDecl hp
  rw [Profile.ofDecl_decl, ← ha.decls_eq hclean]
  exact ⟨List.mem_map_of_mem hn, Profile.ofDecl_clean (ha.findings_profile hclean hp)⟩

theorem fieldNames_eq (ha : a.Complete) (hclean : a.findings = []) {p : Profile} (hp : p ∈ a.profiles) :
    p.fields.map (·.name) = p.decl.fields.map (·.name) := by
  rw [(ha.profile_clean hclean hp).2.1, List.map_map]
  rfl

theorem ctor_decl (ha : a.Complete) {p : Profile} (hp : p ∈ a.profiles) :
    p.ctor.decl = Profile.constructorDecl p.decl := by
  obtain ⟨n, -, above, asc, subs, rfl⟩ := ha.exists_ofDecl hp
  rw [Profile.ofDecl_ctor_decl, Profile.ofDecl_decl]

/-- Without findings the constructor of a profile has the parameters that are declared. -/
theorem ctor_clean (ha : a.Complete) (hclean : a.findings = []) {p : Profile} (hp : p ∈ a.profiles) :
    Signature.parse (Profile.constructorDecl p.decl).params = .ok p.ctor.params ∧
      parseTypeParams (Profile.constructorDecl p.decl).typeParams = .ok p.ctor.typeParams := by
  obtain ⟨n, -, above, asc, subs, rfl⟩ := ha.exists_ofDecl hp
  rw [Profile.ofDecl_decl]
  exact Profile.ofDecl_ctor_clean (ha.findings_profile hclean hp)

/-- Without findings no two declarations have one name. -/
theorem decl_unique (ha : a.Complete) (hclean : a.findings = []) {d d' : MeaningDecl} (hd : d ∈ a.file.meanings)
    (hd' : d' ∈ a.file.meanings) (hname : d.name = d'.name) : d = d' := by
  have hnodup : (a.file.meanings.map (·.name)).Nodup := by
    have := ha.sound.nodup
    rw [← ha.decls_eq hclean, List.map_map]
    exact this
  exact List.inj_on_of_nodup_map hnodup hd hd' hname

theorem mem_names_of_decl (ha : a.Complete) (hclean : a.findings = []) {d : MeaningDecl} (hd : d ∈ a.file.meanings) :
    d.name ∈ a.forest.names := by
  rw [← ha.decls_eq hclean] at hd
  obtain ⟨n, hn, rfl⟩ := List.mem_map.1 hd
  exact Forest.mem_names hn

/-- Without findings every declared meaning has a profile. -/
theorem exists_profile_of_decl (ha : a.Complete) (hclean : a.findings = []) {d : MeaningDecl}
    (hd : d ∈ a.file.meanings) : ∃ p ∈ a.profiles, p.decl = d := by
  obtain ⟨p, hp⟩ := ha.exists_profile (ha.mem_names_of_decl hclean hd)
  obtain ⟨hp, hname⟩ := mem_of_find hp
  exact ⟨p, hp, ha.decl_unique hclean (ha.profile_clean hclean hp).1 hd hname⟩

end Complete

end Analysis

end MeaningForest

import MeaningForest.Proofs.Declared
import MeaningForest.Proofs.Generation
import MeaningForest.Proofs.Members

/-!
# Names of package-level declarations

The package-level names of a meaning are its capitalised name between certain words, so two meanings can get one name.
The analysis takes the names of one meaning after the other and reports a name that another one has.

* `unambiguous_of_clean`: without findings a generated name belongs to one meaning, and it is neither the name of the
  arena type nor that of a meaning;
* `Unambiguous.capitalize_inj`: so meanings still differ when they are capitalised, and with them their layers, tags,
  constructor functions and information variables;
* `exists_distinct_names`: all names that a generated file declares are distinct, and so are the parts of each layer.
-/

namespace MeaningForest

open Code

variable {lang : Language}

/-- An element is found by its key if no other one has that key. -/
theorem find?_key {α κ : Type} [DecidableEq κ] {key : α → κ} {l : List α} {x : α} (hx : x ∈ l)
    (hinj : ∀ y ∈ l, key y = key x → y = x) : l.find? (key · = key x) = some x := by
  cases hfind : l.find? (key · = key x) with
  | none =>
    have hnone := List.find?_eq_none.1 hfind x hx
    simp at hnone
  | some y =>
    have heq : key y = key x := by simpa using List.find?_some hfind
    rw [hinj y (List.mem_of_find?_eq_some hfind) heq]

/-! ### The names of one meaning -/

/-- The names of a meaning are distinct if its submeanings differ when they are capitalised. -/
theorem topLevelNames_nodup (m : Text) {subs : List Text} (h : (subs.map Text.capitalize).Nodup) :
    (topLevelNames m subs).Nodup := by
  rw [topLevelNames, List.nodup_append]
  refine ⟨?_, ?_, ?_⟩
  · simp [layerName, variantName, terminalName, infoName, ctorName, initName, newName, Text.ofString,
      String.utf8EncodeChar]
  · have htags : subs.map (toLayerName m) = (subs.map Text.capitalize).map (layerName m ++ "To" ++ ·) := by
      simp [toLayerName, Function.comp_def]
    rw [htags]
    exact h.map fun s t hst => List.append_cancel_left hst
  · intro name hname tag htag
    obtain ⟨s, -, rfl⟩ := List.mem_map.1 htag
    -- among the names that begin as the tag does, the words after the meaning's name differ from `To`
    simp only [List.mem_cons, List.not_mem_nil, or_false] at hname
    rcases hname with rfl | rfl | rfl | rfl | rfl | rfl | rfl <;>
      simp [toLayerName, layerName, variantName, terminalName, infoName, ctorName, initName, newName, Text.ofString,
        String.utf8EncodeChar]

/-! ### Owners of names -/

namespace Forest

/-- Taking names changes no owner; if none belongs to another meaning, all of them are taken. -/
theorem takeNames_spec (m : Text) (owners : Owners) (names : List Text) :
    (∀ name o, owners.lookup name = some o → (takeNames m owners names).1.lookup name = some o) ∧
      ((takeNames m owners names).2 = false → ∀ name ∈ names, (takeNames m owners names).1.lookup name = some m) := by
  induction names generalizing owners with
  | nil => exact ⟨fun _ _ h => h, by simp⟩
  | cons name names ih =>
    rw [takeNames]
    cases hlook : owners.lookup name with
    | some owner =>
      by_cases howner : owner = m
      · obtain ⟨hkeep, htake⟩ := ih owners
        simp only [howner, if_true]
        refine ⟨hkeep, fun hfree x hx => ?_⟩
        rcases List.mem_cons.1 hx with rfl | hx
        · exact hkeep _ _ (howner ▸ hlook)
        · exact htake hfree x hx
      · simp only [howner, if_false]
        exact ⟨fun _ _ h => h, by simp⟩
    | none =>
      obtain ⟨hkeep, htake⟩ := ih (owners ++ [(name, m)])
      refine ⟨fun x o hx => hkeep x o ?_, fun hfree x hx => ?_⟩
      · rw [List.lookup_append, hx]
        rfl
      · rcases List.mem_cons.1 hx with rfl | hx
        · refine hkeep x m ?_
          rw [List.lookup_append, hlook]
          simp
        · exact htake hfree x hx

/-- The package-level names of a meaning of the forest. -/
def topLevel (f : Forest) (m : Text) : List Text := topLevelNames m (f.submeanings m)

/-- Findings stay; without a new one all names of the meaning are taken. -/
theorem takeTopLevel_clean {f : Forest} {acc : Owners × List Finding} {n : ForestNode}
    (h : (f.takeTopLevel acc n).2 = []) : acc.2 = [] ∧
      (∀ name o, acc.1.lookup name = some o → (f.takeTopLevel acc n).1.lookup name = some o) ∧
      ∀ name ∈ f.topLevel n.name, (f.takeTopLevel acc n).1.lookup name = some n.name := by
  obtain ⟨hkeep, htake⟩ := takeNames_spec n.name acc.1 (f.topLevel n.name)
  rw [takeTopLevel, ← topLevel] at h ⊢
  rcases hr : takeNames n.name acc.1 (f.topLevel n.name) with ⟨owners, clash⟩
  rw [hr] at h hkeep htake
  cases clash with
  | true => simp at h
  | false => exact ⟨h, hkeep, htake rfl⟩

theorem foldl_takeTopLevel_clean {f : Forest} {nodes : List ForestNode} {acc : Owners × List Finding}
    (h : (nodes.foldl f.takeTopLevel acc).2 = []) : acc.2 = [] ∧
      (∀ name o, acc.1.lookup name = some o → (nodes.foldl f.takeTopLevel acc).1.lookup name = some o) ∧
      ∀ n ∈ nodes, ∀ name ∈ f.topLevel n.name, (nodes.foldl f.takeTopLevel acc).1.lookup name = some n.name := by
  induction nodes generalizing acc with
  | nil => exact ⟨h, fun _ _ h => h, by simp⟩
  | cons n nodes ih =>
    obtain ⟨hclean, hkeep, htaken⟩ := ih h
    obtain ⟨hclean', hkeep', htaken'⟩ := takeTopLevel_clean hclean
    refine ⟨hclean', fun name o ho => hkeep name o (hkeep' name o ho), fun x hx name hname => ?_⟩
    rcases List.mem_cons.1 hx with rfl | hx
    · exact hkeep name _ (htaken' name hname)
    · exact htaken x hx name hname

/-- No registered meaning has the name of the arena type. -/
theorem registered_ne_arena {arena : Text} {decls : List MeaningDecl} {d : MeaningDecl}
    (h : d ∈ registered arena decls) : d.name ≠ arena := by
  have hrun : ∀ (decls : List MeaningDecl) (acc : List MeaningDecl × List Finding),
      (∀ d ∈ acc.1, d.name ≠ arena) → ∀ d ∈ (decls.foldl (register arena) acc).1, d.name ≠ arena := by
    intro decls
    induction decls with
    | nil => exact fun _ hacc => hacc
    | cons d decls ih =>
      intro acc hacc
      refine ih (register arena acc d) fun x hx => ?_
      rw [register] at hx
      cases hr : rejection? arena acc.1 d with
      | some p =>
        rw [hr] at hx
        exact hacc x hx
      | none =>
        rw [hr] at hx
        rcases List.mem_append.1 hx with hx | hx
        · exact hacc x hx
        · obtain rfl := List.mem_singleton.1 hx
          rintro rfl
          simp [rejection?] at hr
          split at hr <;> cases hr
  exact hrun decls ([], []) (by simp) d h

/-- Every generated name belongs to one meaning, and it is neither the name of the arena type nor that of a meaning. -/
structure Unambiguous (f : Forest) (arena : Text) : Prop where
  owner : ∀ m ∈ f.names, ∀ n ∈ f.names, ∀ name ∈ f.topLevel m, name ∈ f.topLevel n → m = n
  arena_notMem : ∀ m ∈ f.names, arena ∉ f.topLevel m
  name_notMem : ∀ m ∈ f.names, ∀ n ∈ f.names, m ∉ f.topLevel n

theorem unambiguous_of_clean {f : Forest} {arena : Text} (h : f.nameFindings arena = []) : f.Unambiguous arena := by
  simp only [nameFindings, List.append_eq_nil_iff, List.map_eq_nil_iff, List.filter_eq_nil_iff] at h
  obtain ⟨⟨hclash, harena⟩, hnames⟩ := h
  obtain ⟨-, -, howned⟩ := foldl_takeTopLevel_clean hclash
  generalize (f.nodes.foldl f.takeTopLevel ([], [])).1 = owners at *
  have hlook : ∀ m ∈ f.names, ∀ name ∈ f.topLevel m, owners.lookup name = some m := by
    intro m hm name hname
    obtain ⟨n, hn, rfl⟩ := exists_node hm
    exact howned n hn name hname
  constructor
  · intro m hm n hn name hname hname'
    have := hlook m hm name hname
    rw [hlook n hn name hname'] at this
    exact (Option.some.inj this).symm
  · intro m hm hmem
    simp [hlook m hm arena hmem] at harena
  · intro m hm n hn hmem
    obtain ⟨x, hx, rfl⟩ := exists_node hm
    exact hnames x hx (by simp [hlook n hn x.name hmem])

namespace Unambiguous

variable {f : Forest} {arena : Text}

/-- Different meanings differ when they are capitalised, since otherwise their layers would have one name. -/
theorem capitalize_inj (h : f.Unambiguous arena) {m n : Text} (hm : m ∈ f.names) (hn : n ∈ f.names)
    (heq : m.capitalize = n.capitalize) : m = n := by
  refine h.owner m hm n hn (layerName m) (by simp [topLevel, topLevelNames]) ?_
  have hlayer : layerName m = layerName n := by rw [layerName, layerName, heq]
  simp [topLevel, topLevelNames, hlayer]

/-- With any one word in front the names of meanings differ. -/
theorem word_inj (h : f.Unambiguous arena) {word m n : Text} (hm : m ∈ f.names) (hn : n ∈ f.names)
    (heq : word ++ m.capitalize = word ++ n.capitalize) : m = n :=
  h.capitalize_inj hm hn (List.append_cancel_left heq)

theorem topLevel_nodup (h : f.Unambiguous arena) (hf : f.Sound) (m : Text) : (f.topLevel m).Nodup := by
  refine topLevelNames_nodup m ((List.nodup_map_iff_inj_on (hf.submeanings_nodup m)).2 ?_)
  intro s hs t ht heq
  have hmem : ∀ x ∈ f.submeanings m, x ∈ f.names := fun x hx => mem_names_of_parent? (hf.mem_submeanings.1 hx)
  exact h.capitalize_inj (hmem s hs) (hmem t ht) heq

end Unambiguous

end Forest

/-! ### The names of a generated file -/

theorem Code.exists_of_mem_layerTags {l : List Text} {tag : Text} (h : tag ∈ layerTags l) :
    ∃ m n, [m, n] <:+: l ∧ tag = toLayerName m n := by
  induction l with
  | nil => cases h
  | cons a l ih =>
    cases l with
    | nil => cases h
    | cons b l =>
      rcases List.mem_cons.1 h with rfl | h
      · exact ⟨a, b, ⟨[], l, rfl⟩, rfl⟩
      · obtain ⟨m, n, hpair, rfl⟩ := ih h
        exact ⟨m, n, List.infix_cons hpair, rfl⟩

namespace Analysis

variable {a : Analysis}

theorem Complete.unambiguous (ha : a.Complete) (hclean : a.findings = []) : a.forest.Unambiguous a.arena := by
  rw [ha.findings_eq, List.append_eq_nil_iff, List.append_eq_nil_iff] at hclean
  exact Forest.unambiguous_of_clean hclean.1.2

theorem Complete.ne_arena (ha : a.Complete) {m : Text} (hm : m ∈ a.forest.names) : m ≠ a.arena := by
  rw [ha.forest_eq, (Forest.pruned_ofDecls a.arena a.file.meanings).names_eq, Forest.names_attached] at hm
  obtain ⟨d, hd, rfl⟩ := List.mem_map.1 hm
  exact Forest.registered_ne_arena hd

/-- The names of a part are that of its meaning and those that are generated for it. -/
theorem Complete.packageNames_perm (ha : a.Complete) {settings : Settings} {code : FileCode}
    (h : a.fileCode settings = .ok code) {part : MeaningCode} (hpart : part ∈ code.meanings) :
    part.packageNames.Perm (part.handle.meaning :: a.forest.topLevel part.handle.meaning) := by
  obtain ⟨p, hp, root, below, methods, -, rfl⟩ := ha.exists_part h hpart
  simp only [MeaningCode.packageNames, LayerCode.packageNames, ConstructorCode.packageNames, codeOf, Forest.topLevel,
    topLevelNames, ← ha.submeanings_eq hp]
  rw [List.perm_iff_count]
  intro x
  simp only [List.count_append, List.count_cons, List.count_nil]
  omega

theorem Complete.meaning_mem_names (ha : a.Complete) {settings : Settings} {code : FileCode}
    (h : a.fileCode settings = .ok code) {part : MeaningCode} (hpart : part ∈ code.meanings) :
    part.handle.meaning ∈ a.forest.names := by
  rw [← ha.map_meaning h]
  exact List.mem_map_of_mem hpart

/-- The declarations of a file are its arena type, its meanings and what is generated for these. -/
theorem Complete.mem_packageNames_iff (ha : a.Complete) {settings : Settings} {code : FileCode}
    (hcode : a.fileCode settings = .ok code) {name : Text} :
    name ∈ code.packageNames ↔ name = a.arena ∨ ∃ m ∈ a.forest.names, name ∈ m :: a.forest.topLevel m := by
  rw [FileCode.packageNames, fileCode_arena hcode, List.mem_cons, List.mem_flatMap, ← ha.map_meaning hcode]
  refine or_congr_right ⟨?_, ?_⟩
  · rintro ⟨part, hpart, hname⟩
    exact ⟨_, List.mem_map_of_mem hpart, (ha.packageNames_perm hcode hpart).mem_iff.1 hname⟩
  · rintro ⟨m, hm, hname⟩
    obtain ⟨part, hpart, rfl⟩ := List.mem_map.1 hm
    exact ⟨part, hpart, (ha.packageNames_perm hcode hpart).mem_iff.2 hname⟩

/-- The package-level names are words if the names of the meanings and of the arena type are. -/
theorem Complete.isIdent_packageNames (ha : a.Complete) {settings : Settings} {code : FileCode}
    (hcode : a.fileCode settings = .ok code) (hnames : ∀ m ∈ a.forest.names, m.IsIdent) (harena : a.arena.IsIdent)
    {name : Text} (h : name ∈ code.packageNames) : name.IsIdent := by
  rcases (ha.mem_packageNames_iff hcode).1 h with rfl | ⟨m, hm, hname⟩
  · exact harena
  · rcases List.mem_cons.1 hname with rfl | hname
    · exact hnames _ hm
    · refine isIdent_of_mem_topLevelNames (hnames m hm).word (fun sub hsub => (hnames sub ?_).word) hname
      obtain ⟨n, hn, rfl⟩ := List.mem_map.1 hsub
      exact List.mem_map_of_mem (List.mem_filter.1 hn).1

theorem Complete.mem_packageNames (ha : a.Complete) {settings : Settings} {code : FileCode}
    (hcode : a.fileCode settings = .ok code) {m name : Text}
    (hm : m ∈ a.forest.names) (hname : name ∈ m :: a.forest.topLevel m) : name ∈ code.packageNames :=
  (ha.mem_packageNames_iff hcode).2 (.inr ⟨m, hm, hname⟩)

/-- The tags along an ancestry are declared by the file. -/
theorem Complete.layerTags_subset (ha : a.Complete) {settings : Settings} {code : FileCode}
    (hcode : a.fileCode settings = .ok code) {m : Text} {asc : List Text} (hasc : Lineage a.forest.parent? m asc)
    (hm : m ∈ a.forest.names) : layerTags asc ⊆ code.packageNames := by
  intro tag htag
  obtain ⟨n, s, hpair, rfl⟩ := exists_of_mem_layerTags htag
  have hs : a.forest.parent? s = some n := ( List.IsChain.infix hasc.isChain hpair).rel
  have hn := ha.sound.mem_names_of_lineage hasc (hpair.subset (List.mem_cons_self ..)) hm
  have hmem := List.mem_map_of_mem (f := toLayerName n) (ha.sound.mem_submeanings.2 hs)
  exact ha.mem_packageNames hcode hn (List.mem_cons_of_mem _ (List.mem_append_right _ hmem))

/-- A part is found by the name of one of its declarations, which is a word and the name of the meaning. -/
theorem Complete.find?_part (ha : a.Complete) (hclean : a.findings = []) {settings : Settings} {code : FileCode}
    (h : a.fileCode settings = .ok code) (word : Text) {key : MeaningCode → Text}
    (hkey : ∀ part ∈ code.meanings, key part = word ++ part.handle.meaning.capitalize) {part : MeaningCode}
    (hpart : part ∈ code.meanings) : code.meanings.find? (key · = key part) = some part := by
  refine find?_key hpart fun other hother heq => ?_
  rw [hkey other hother, hkey part hpart] at heq
  have hname := (ha.unambiguous hclean).word_inj (ha.meaning_mem_names h hother) (ha.meaning_mem_names h hpart) heq
  exact ha.part_unique h hother hpart hname

theorem Complete.packageNames_nodup (ha : a.Complete) (hclean : a.findings = []) {settings : Settings}
    {code : FileCode} (h : a.fileCode settings = .ok code) : code.packageNames.Nodup := by
  have hun := ha.unambiguous hclean
  have hperm : ∀ part ∈ code.meanings, _ := fun part hpart => ha.packageNames_perm h hpart
  have hmem : ∀ part ∈ code.meanings, _ := fun part hpart => ha.meaning_mem_names h hpart
  have hone : code.meanings.Pairwise fun part other => part.handle.meaning ≠ other.handle.meaning := by
    rw [← List.pairwise_map, ha.map_meaning h]
    exact ha.sound.nodup
  refine List.nodup_cons.2 ⟨?_, List.nodup_flatMap.2 ⟨?_, ?_⟩⟩
  · rw [fileCode_arena h, List.mem_flatMap]
    rintro ⟨part, hpart, harena⟩
    rcases List.mem_cons.1 ((hperm part hpart).mem_iff.1 harena) with harena | harena
    · exact ha.ne_arena (hmem part hpart) harena.symm
    · exact hun.arena_notMem _ (hmem part hpart) harena
  · intro part hpart
    rw [(hperm part hpart).nodup_iff, List.nodup_cons]
    exact ⟨hun.name_notMem _ (hmem part hpart) _ (hmem part hpart), hun.topLevel_nodup ha.sound _⟩
  · refine hone.imp_of_mem fun {part other} hpart hother hne => ?_
    intro name hname hname'
    rw [(hperm part hpart).mem_iff, List.mem_cons] at hname
    rw [(hperm other hother).mem_iff, List.mem_cons] at hname'
    have hm := hmem part hpart
    have hn := hmem other hother
    rcases hname with rfl | hname <;> rcases hname' with heq | hname'
    · exact hne heq
    · exact hun.name_notMem _ hm _ hn hname'
    · exact hun.name_notMem _ hn _ hm (heq ▸ hname)
    · exact hne (hun.owner _ hm _ hn name hname hname')

theorem Chain.exclusive {asc : List Text} {ps : List Profile} (h : a.Chain asc ps) {us vs : List Profile} {p : Profile}
    (hps : ps = us ++ p :: vs) :
    p.Exclusive us := by
  obtain ⟨n, -, rfl⟩ := h.made us p vs hps
  exact Profile.ofDecl_exclusive _ _ _

/-- No field has a name that the root reserves. -/
theorem Chain.field_ne_reserved {asc : List Text} {ps : List Profile} (h : a.Chain asc ps) (ha : a.Complete)
    (hclean : a.findings = []) {p : Profile}
    (hp : p ∈ ps) {f : FieldSlot} (hf : f ∈ p.fields) {name : Text}
    (hname : name ∈ ["root", "variant", "RuntimeInfo", "runtimeInfo"].map Text.ofString) : f.name ≠ name := by
  obtain ⟨us, vs, hps⟩ := List.append_of_mem hp
  obtain ⟨root, rest, hroot⟩ : ∃ root rest, us ++ [p] = root :: rest :=
    List.exists_cons_of_ne_nil (by simp)
  have hps' : ps = [] ++ root :: (rest ++ vs) := by
    rw [hps, List.nil_append, ← List.cons_append, ← hroot]
    simp
  obtain ⟨n, -, hmade⟩ := h.made [] root (rest ++ vs) hps'
  have hreserved : ⟨n.decl.name, name, .generated⟩ ∈ root.members := by
    have hfindings := ha.findings_profile hclean (h.mem_profiles (by simp [hps'] : root ∈ ps))
    rw [hmade] at hfindings ⊢
    refine Profile.ofDecl_reserved hfindings ?_
    simp only [Profile.reservedNames, Profile.parent?, Profile.ofDecl_ascending, List.map_nil, List.nil_append,
      List.dropLast_singleton, List.getLast?_nil]
    exact List.mem_append_left _ hname
  have hin : ⟨n.decl.name, name, .generated⟩ ∈ us.flatMap (·.members) ++ p.members := by
    have hflat : us.flatMap (·.members) ++ p.members = (us ++ [p]).flatMap (·.members) := by simp
    rw [hflat, hroot]
    exact List.mem_flatMap.2 ⟨root, by simp, hreserved⟩
  exact (h.exclusive hps).field_ne hf hin (by simp)

/-- The cells of a layer, its tag and its method have different names. -/
theorem Complete.layer_nodup (ha : a.Complete) (hclean : a.findings = []) {settings : Settings}
    {code : FileCode} (h : a.fileCode settings = .ok code) {part : MeaningCode} (hpart : part ∈ code.meanings) :
    (part.layer.cells.map (·.name) ++ ["variant", "runtimeInfo"].map Text.ofString).Nodup := by
  obtain ⟨p, hp, root, below, methods, -, rfl⟩ := ha.exists_part h hpart
  obtain ⟨asc, us, -, hchain⟩ := ha.exists_chain_of_mem hp
  refine List.nodup_append.2 ⟨(hchain.consistent rfl).fields_nodup, by decide, ?_⟩
  intro name hname other hother
  obtain ⟨f, hf, rfl⟩ := List.mem_map.1 hname
  exact hchain.field_ne_reserved ha hclean (by simp) hf (by simp at hother ⊢; tauto)

/-- Package-level names.  Each meaning gets its own and those of the tags for its submeanings; each of them is declared
by a line of the file, and all of them and the name of the arena type are distinct.  If meanings and arena have words
for names, then the lines outside of bodies declare nothing else, and each of these names once. -/
theorem exists_distinct_names {settings : Settings} {file : DeclFile} (h : ofFile settings file = .ok a)
    (hclean : a.findings = []) : ∃ code, a.fileCode settings = .ok code ∧ code.arena = arenaOf settings file ∧
      code.meanings.map (·.handle.meaning) = file.meanings.map (·.name) ∧
      (∀ name ∈ code.packageNames, ∃ l ∈ code.lines, l.Declares name) ∧ code.packageNames.Nodup ∧
      (code.frame.lines.Sublist code.lines ∧ ((∀ d ∈ file.meanings, d.name.IsIdent) →
        (arenaOf settings file).IsIdent → (declaredNames code.frame.lines).Perm code.packageNames)) ∧
      ∀ d ∈ file.meanings, ∃ part ∈ code.meanings, part.handle.meaning = d.name ∧
        part.packageNames.Perm (d.name :: a.forest.topLevel d.name) ∧
        part.layer.cells.map (·.name) = d.fields.map (·.name) ∧
        (d.fields.map (·.name) ++ ["variant", "runtimeInfo"].map Text.ofString).Nodup := by
  have harena := arena_of_ofFile h
  obtain ⟨ha, rfl⟩ := complete_of_ofFile h
  obtain ⟨code, hcode⟩ := ha.exists_fileCode settings
  have hmeanings : code.meanings.map (·.handle.meaning) = a.file.meanings.map (·.name) := by
    rw [ha.map_meaning hcode, ← ha.decls_eq hclean, List.map_map]
    rfl
  refine ⟨code, hcode, by rw [fileCode_arena hcode, harena], hmeanings, fun name hname => code.exists_declares hname,
    ha.packageNames_nodup hclean hcode, ⟨code.frame_sublist, fun hnames hident => ?_⟩, fun d hd => ?_⟩
  · have hforest : ∀ m ∈ a.forest.names, m.IsIdent := by
      intro m hm
      rw [← ha.map_meaning hcode, hmeanings] at hm
      obtain ⟨d, hd, rfl⟩ := List.mem_map.1 hm
      exact hnames d hd
    rw [← harena] at hident
    exact code.declaredNames_frame fun name hname => ha.isIdent_packageNames hcode hforest hident hname
  obtain ⟨p, hp, rfl, -, root, below, methods, -, hpart⟩ := ha.exists_codeOf hclean hcode hd
  have hfields := ha.fieldNames_eq hclean hp
  have hlayer := ha.layer_nodup hclean hcode hpart
  refine ⟨_, hpart, rfl, ha.packageNames_perm hcode hpart, hfields, ?_⟩
  rw [← hfields]
  exact hlayer

/-- Meanings whose names are close to the names that are generated for others. -/
def neighbours : DeclFile :=
  let meaning (name parent : Text) (fields : List FieldDecl) : MeaningDecl :=
    { position := ⟨1, 1⟩, name, parent, parentPosition := ⟨1, 1⟩, doc := [], fields, constructors := [], methods := [] }
  let field : FieldDecl := { position := ⟨1, 1⟩, name := "Variant", isRef := false, type := "int", default := [] }
  { name := "neighbours.mt", meanings := [meaning "A" [] [field], meaning "ATo" [] [], meaning "To" "A" []] }

theorem distinct_names_neighbours : ∃ a code part, @ofFile .english {} neighbours = .ok a ∧ a.findings = [] ∧
    a.fileCode {} = .ok code ∧ code.packageNames.Nodup ∧ (declaredNames code.frame.lines).Perm code.packageNames ∧
    part ∈ code.meanings ∧
    part.packageNames.Perm ("A" :: a.forest.topLevel "A") ∧
    (["Variant", "variant", "runtimeInfo"].map Text.ofString).Nodup := by
  obtain ⟨a, ha, hclean⟩ := exists_clean (by decide +kernel : @cleanInOrder .english {} neighbours)
  obtain ⟨code, hcode, -, -, -, hnodup, ⟨-, hdeclared⟩, hparts⟩ := exists_distinct_names ha hclean
  obtain ⟨d, hd, hname, hfields⟩ : ∃ d ∈ neighbours.meanings, d.name = "A" ∧
      d.fields.map (·.name) = [Text.ofString "Variant"] := by decide +kernel
  obtain ⟨part, hpart, -, hperm, -, hlayer⟩ := hparts d hd
  rw [hname] at hperm
  rw [hfields] at hlayer
  exact ⟨a, code, part, ha, hclean, hcode, hnodup, hdeclared (by decide +kernel) (by decide +kernel), hpart,
    hperm, hlayer⟩

end Analysis

end MeaningForest

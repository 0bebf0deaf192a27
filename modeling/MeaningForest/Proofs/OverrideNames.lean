import MeaningForest.Proofs.Handles
import MeaningForest.Proofs.Names

/-!
# Names of overrides

An override becomes a method of the handle type, with a name made of the meaning and the overridden method.  All other
names on a handle type are taken in its table of members, and are distinct; the names of overrides are not.

* `Profile.ofDecl_taken`: without findings the table holds the names that every handle type of its kind has, those of
  the accessors and those of the methods, and these are distinct.
* `exists_overrides_distinct_iff`: with the names of overrides they are distinct exactly if the overridden methods
  still differ when they are capitalised, and no override has the name of the parent, of a field or of a method.
* `overrides_collide_twins`: two overrides of one meaning can have one name.
-/

namespace MeaningForest

open Code

variable {lang : Language}

/-! ### Setters -/

namespace Text

theorem scalars_ascii {a : UInt8} (h : a < 0x80) (t : Text) : scalars (a :: t) = a.toNat :: scalars t := by
  have hdecode : decode a t = ⟨a.toNat, true, 1⟩ := by simp [decode, h]
  rw [scalars, decodeAll, hdecode]
  simp [afterFirst, hdecode, scalars]

/-- The ASCII characters at the beginning of a text stay when it is encoded anew. -/
theorem length_takeWhile_ascii_le (t : Text) :
    (t.takeWhile (· < 0x80)).length ≤ ((ofScalars (scalars t)).takeWhile (· < 0x80)).length := by
  induction t with
  | nil => exact Nat.zero_le _
  | cons a t ih =>
    by_cases ha : a < 0x80
    · have hencode : encode a.toNat = [a] := by
        have hlt : a.toNat < 0x80 := ha
        simp [encode, hlt]
      have hscalars : ofScalars (scalars (a :: t)) = a :: ofScalars (scalars t) := by
        rw [scalars_ascii ha, ofScalars, List.flatMap_cons, hencode]
        rfl
      rw [hscalars, List.takeWhile_cons_of_pos (by simpa using ha), List.takeWhile_cons_of_pos (by simpa using ha)]
      exact Nat.succ_le_succ ih
    · rw [List.takeWhile_cons_of_neg (by simpa using ha)]
      exact Nat.zero_le _

theorem capitalize_ascii {a : UInt8} (h : a < 0x80) (t : Text) :
    capitalize (a :: t) = encode (upper a.toNat) ++ ofScalars (scalars t) := by
  rw [capitalize_of_scalars_cons (scalars_ascii h t)]
  rfl

end Text

/-- A field and its setter have different names. -/
theorem ne_setterName (field : Text) : field ≠ setterName field := by
  intro h
  obtain ⟨a, ha, hset⟩ : ∃ a : UInt8, (a = 0x53 ∨ a = 0x73) ∧
      setterName field = a :: 0x65 :: 0x74 :: field.capitalize := by
    rw [setterName]
    split
    · exact ⟨0x53, .inl rfl, rfl⟩
    · exact ⟨0x73, .inr rfl, rfl⟩
  have hlt : a < 0x80 := by rcases ha with rfl | rfl <;> decide
  have hupper : Text.encode (Text.upper a.toNat) = [0x53] := by rcases ha with rfl | rfl <;> decide
  rw [hset] at h
  obtain ⟨t, rfl⟩ : ∃ t, field = a :: t := ⟨_, h⟩
  rw [Text.capitalize_ascii hlt, hupper, List.cons_inj_right] at h
  -- then the ASCII characters at the beginning would go on without end
  have hlong : (t.takeWhile (· < 0x80)).length =
      ((Text.ofScalars (Text.scalars t)).takeWhile (· < 0x80)).length + 3 := by
    conv_lhs => rw [h]
    simp
  have := Text.length_takeWhile_ascii_le t
  omega

namespace Profile

/-! ### The table of members -/

variable {above : List Profile}

/-- The names that are taken on the handle type. -/
def taken (p : Profile) : List Text := p.members.map (·.name)

/-- The names of the getter and the setter of a field. -/
def accessorNames (f : FieldSlot) : List Text := [f.name, setterName f.name]

/-- The members of a profile are its own, and no two have one name. -/
structure Distinct (p : Profile) : Prop where
  owner : ∀ e ∈ p.members, e.owner = p.name
  nodup : p.taken.Nodup

namespace Distinct

/-- Names that are free can be taken: each member blocks its own name. -/
theorem add {p q : Profile} (h : Distinct p) {kind : MemberKind} {names : List Text}
    (hfree : p.conflict? above kind names = none) (hnames : names.Nodup) (hname : q.name = p.name)
    (hmembers : q.members = p.members ++ p.entries kind names) : Distinct q := by
  rw [conflict?_eq_none] at hfree
  have hentries : (p.entries kind names).map (·.name) = names := by simp [entries, Function.comp_def]
  constructor
  · intro e he
    rw [hmembers, List.mem_append] at he
    rw [hname]
    rcases he with he | he
    · exact h.owner e he
    · obtain ⟨_, -, rfl⟩ := List.mem_map.1 he
      rfl
  · rw [taken, hmembers, List.map_append, hentries, List.nodup_append]
    refine ⟨h.nodup, hnames, ?_⟩
    rintro x hx y hy rfl
    obtain ⟨e, he, rfl⟩ := List.mem_map.1 hx
    have hblocked := hfree e.name hy e (List.mem_append_right _ he)
    simp [Member.blocks, h.owner e he] at hblocked

theorem of_same {p q : Profile} (h : Distinct p) (hname : q.name = p.name) (hmembers : q.members = p.members) :
    Distinct q := by
  refine ⟨?_, ?_⟩
  · rw [hmembers, hname]; exact h.owner
  · rw [taken, hmembers]; exact h.nodup

theorem reserve {p : Profile} (h : Distinct p) (name : Text) : Distinct (p.reserve above name) := by
  rcases p.reserve_cases above name with ⟨problem, he⟩ | ⟨hfree, he⟩
  · exact he ▸ h.of_same rfl rfl
  · exact he ▸ h.add hfree (List.nodup_singleton _) rfl rfl

theorem addField {p : Profile} (h : Distinct p) (d : FieldDecl) : Distinct (p.addField above d) := by
  rcases p.addField_cases above d with ⟨problem, he⟩ | ⟨-, hfree, he⟩
  · exact he ▸ h.of_same rfl rfl
  · exact he ▸ h.add hfree (by simpa using ne_setterName d.name) rfl rfl

theorem setConstructor {p : Profile} (h : Distinct p) : Distinct (p.setConstructor above) := by
  obtain ⟨ctor, fs, -, he⟩ := setConstructor_frame above p
  exact he ▸ h.of_same rfl rfl

theorem addMethod {p : Profile} (h : Distinct p) (d : MethodDecl) : Distinct (p.addMethod above d) := by
  rcases p.addMethod_cases above d with ⟨problem, he⟩ | ⟨f, -, -, -, -, hfree, he⟩ | ⟨f, base, -, -, -, -, -, he⟩
  · exact he ▸ h.of_same rfl rfl
  · exact he ▸ h.add hfree (List.nodup_singleton _) rfl rfl
  · exact he ▸ h.of_same rfl rfl

end Distinct

theorem ofDecl_distinct (d : MeaningDecl) (asc subs : List Text) : Distinct (ofDecl above d asc subs) := by
  simp only [ofDecl]
  apply foldl_keeps (P := Distinct) fun _ h d => Distinct.addMethod h d
  apply Distinct.setConstructor
  apply foldl_keeps (P := Distinct) fun _ h d => Distinct.addField h d
  apply foldl_keeps (P := Distinct) fun _ h name => Distinct.reserve h name
  constructor <;> simp [taken]

/-- Beside the reserved names `r` the table holds those of the accessors and the methods, in order. -/
def Tallies (r : List Text) (p : Profile) : Prop :=
  p.taken = r ++ p.fields.flatMap accessorNames ++ p.methods.map (·.name)

theorem Tallies.addField {r : List Text} {p : Profile} (h : Tallies r p ∧ p.methods = []) (d : FieldDecl) :
    Tallies r (p.addField above d) ∧ (p.addField above d).methods = [] := by
  obtain ⟨h, hnone⟩ := h
  rcases p.addField_cases above d with ⟨problem, he⟩ | ⟨-, -, he⟩
  · rw [he]
    exact ⟨h, hnone⟩
  · rw [he]
    refine ⟨?_, hnone⟩
    unfold Tallies taken at h ⊢
    simp [hnone, h, entries, accessorNames, slotOf]

theorem Tallies.setConstructor {r : List Text} {p : Profile} (h : Tallies r p) :
    Tallies r (p.setConstructor above) := by
  obtain ⟨ctor, fs, -, he⟩ := setConstructor_frame above p
  exact he ▸ h

theorem Tallies.addMethod {r : List Text} {p : Profile} (h : Tallies r p) (d : MethodDecl) :
    Tallies r (p.addMethod above d) := by
  rcases p.addMethod_cases above d with ⟨problem, he⟩ | ⟨f, -, hf, -, -, -, he⟩ | ⟨f, base, -, -, -, -, -, he⟩
  · exact he ▸ h
  · rw [he]
    unfold Tallies taken at h ⊢
    simp [h, entries, Method.name, (readMethod_ok hf).2.1]
  · exact he ▸ h

theorem ofDecl_reservedNames (d : MeaningDecl) (asc subs : List Text) :
    (ofDecl above d asc subs).reservedNames = (start d asc subs).reservedNames := by
  rw [reservedNames, parent?, ofDecl_ascending, ofDecl_submeanings]
  rfl

theorem ofDecl_tallies {d : MeaningDecl} {asc subs : List Text} (h : (ofDecl above d asc subs).findings = []) :
    Tallies (start d asc subs).reservedNames (ofDecl above d asc subs) := by
  have hclean := reserved_clean h
  obtain ⟨ms, fs, hres, hall⟩ := foldl_reserve_frame above (start d asc subs).reservedNames (start d asc subs)
  have hreserved : Tallies (start d asc subs).reservedNames (reserved above d asc subs) ∧
      (reserved above d asc subs).methods = [] := by
    rw [reserved, hres] at hclean ⊢
    have hms := hall (List.append_eq_nil_iff.1 hclean).2
    refine ⟨?_, rfl⟩
    simp [Tallies, taken, hms, entries, start, Function.comp_def]
  rw [ofDecl_eq]
  apply foldl_keeps (P := Tallies _) fun _ h d => Tallies.addMethod h d
  apply Tallies.setConstructor
  exact (foldl_keeps (P := fun p => Tallies _ p ∧ p.methods = []) (fun _ h d => Tallies.addField h d) hreserved).1

/-- Without findings the names that are taken are the reserved ones, those of the accessors and those of the methods,
and they are distinct. -/
theorem ofDecl_taken {d : MeaningDecl} {asc subs : List Text} (h : (ofDecl above d asc subs).findings = []) :
    ((ofDecl above d asc subs).reservedNames ++ (ofDecl above d asc subs).fields.flatMap accessorNames ++
      (ofDecl above d asc subs).methods.map (·.name)).Nodup := by
  rw [ofDecl_reservedNames, ← ofDecl_tallies h]
  exact (ofDecl_distinct d asc subs).nodup

end Profile

/-! ### The names on a handle type -/

namespace Code

/-- What a handle type is made of, and the method that only root handles have. -/
def HandleCode.members (h : HandleCode) : List Text :=
  match h.parent with
  | none => ["root", "RuntimeInfo"].map Text.ofString
  | some parent => [parent]

/-- The names that the code of a meaning puts on its handle type, apart from overrides. -/
def MeaningCode.members (c : MeaningCode) : List Text :=
  c.handle.members ++ c.downcasts.map (downcastName ·.sub) ++
    c.accessors.flatMap (Profile.accessorNames ·.field) ++ c.methods.map (·.name)

/-- The names of the overrides. -/
def MeaningCode.overrideNames (c : MeaningCode) : List Text := c.overrides.map (·.name)

/-- A line at the outermost level declares a method of a handle type. -/
def Line.DeclaresMethod (l : Line) (m name : Text) : Prop :=
  l.indent = 0 ∧ ∃ rest, l.text = "func (" ++ receiverName ++ " " ++ m ++ ") " ++ name ++ "(" ++ rest

/-- Code puts a name on the handle type of its meaning: it declares a method of this name, or the type has a component
of this name. -/
def MeaningCode.PutsOnHandle (c : MeaningCode) (name : Text) : Prop :=
  (∃ l ∈ c.lines, l.DeclaresMethod c.handle.meaning name) ∨
    ∃ rest, (rest = [] ∨ rest.head? = some 0x20) ∧
      block ("type " ++ c.handle.meaning ++ " struct" ++ " \x7b") [line (name ++ rest)] "\x7d" <:+: c.lines

theorem declaresMethod_head (m name params results rest : Text) :
    (line (methodHead m name params results ++ rest)).DeclaresMethod m name :=
  ⟨rfl, params ++ ")" ++ (if results.isBlank then ([] : Text) else " " ++ results.trimSpace) ++ rest,
    by simp [line, methodHead]⟩

theorem MethodCode.exists_declaresMethod (f : MethodCode) : ∃ l ∈ f.lines, l.DeclaresMethod f.meaning f.name :=
  ⟨_, by simp [MethodCode.lines], declaresMethod_head _ _ f.decl.params f.decl.results " \x7b"⟩

theorem DowncastCode.exists_declaresMethod (d : DowncastCode) :
    ∃ l ∈ d.lines, l.DeclaresMethod d.meaning (downcastName d.sub) := by
  refine ⟨_, List.mem_cons_of_mem _ (List.mem_cons_self ..), rfl, ") (" ++ d.sub ++ ", bool) \x7b", ?_⟩
  simp [line, Text.ofString, String.utf8EncodeChar]

theorem AccessorCode.exists_declaresMethod (x : AccessorCode) {name : Text}
    (h : name ∈ Profile.accessorNames x.field) : ∃ l ∈ x.lines, l.DeclaresMethod x.meaning name := by
  simp only [Profile.accessorNames, List.mem_cons, List.not_mem_nil, or_false] at h
  rcases h with rfl | rfl
  · refine ⟨_, List.mem_append_left _ (List.mem_cons_self ..), rfl, ") " ++ x.field.type ++ " \x7b", ?_⟩
    simp [line, receiver, Text.ofString, String.utf8EncodeChar]
  · refine ⟨_, List.mem_append_right _ (List.mem_cons_self ..), rfl, "v " ++ x.field.type ++ ") \x7b", ?_⟩
    simp [line, receiver, Text.ofString, String.utf8EncodeChar]

theorem HandleCode.block_infix (h : HandleCode) :
    block ("type " ++ h.meaning ++ " struct" ++ " \x7b") [line h.content] "\x7d" <:+: h.lines := by
  refine ⟨docLines h.doc, [blank] ++ if h.parent.isNone then h.infoLines else [], ?_⟩
  simp [HandleCode.lines, braced]

/-- The component of a handle type is the handle of the parent or the root handle; root handles have a method beside. -/
theorem MeaningCode.putsOnHandle_handle (c : MeaningCode) {name : Text} (h : name ∈ c.handle.members) :
    c.PutsOnHandle name := by
  have hblock : block ("type " ++ c.handle.meaning ++ " struct" ++ " \x7b") [line c.handle.content] "\x7d" <:+:
      c.lines := c.handle.block_infix.trans (MeaningCode.section_infix (by simp [MeaningCode.sections]))
  rw [HandleCode.content] at hblock
  rw [HandleCode.members] at h
  cases hp : c.handle.parent with
  | some parent =>
    rw [hp] at h hblock
    obtain rfl := List.mem_singleton.1 h
    exact .inr ⟨[], .inl rfl, by simpa using hblock⟩
  | none =>
    rw [hp] at h hblock
    simp only [List.map_cons, List.map_nil, List.mem_cons, List.not_mem_nil, or_false] at h
    rcases h with rfl | rfl
    · refine .inr ⟨" " ++ runtimeName ++ ".Handle[" ++ layerName c.handle.meaning ++ "]", .inr rfl, ?_⟩
      simpa [Text.ofString, String.utf8EncodeChar] using hblock
    · refine .inl ⟨_, ?_, declaresMethod_head _ _ [] infoType " \x7b"⟩
      simp [MeaningCode.lines, HandleCode.lines, HandleCode.infoLines, hp, braced, block]

end Code

/-- The name of an override is no word that is reserved, no downcast and no setter: it begins differently. -/
theorem overrideName_ne (m n : Text) : overrideName m n ∉ ["root", "RuntimeInfo"].map Text.ofString ∧
    (∀ sub, overrideName m n ≠ downcastName sub) ∧ ∀ field, overrideName m n ≠ setterName field := by
  refine ⟨by simp [overrideName, Text.ofString, String.utf8EncodeChar], fun sub => ?_, fun field => ?_⟩
  · simp [overrideName, downcastName, Text.ofString, String.utf8EncodeChar]
  · rw [setterName]
    split <;> simp [overrideName, Text.ofString, String.utf8EncodeChar]

/-- Overrides of a meaning have different names exactly if the methods differ when they are capitalised. -/
theorem map_overrideName_nodup (m : Text) (names : List Text) :
    (names.map (overrideName m)).Nodup ↔ (names.map Text.capitalize).Nodup := by
  have hmap : names.map (overrideName m) =
      (names.map Text.capitalize).map ("override" ++ m.capitalize ++ ·) := by
    simp [overrideName, Function.comp_def]
  rw [hmap]
  exact List.nodup_map_iff fun x y h => List.append_cancel_left h

/-- The methods that a meaning overrides, and those that it defines. -/
def MeaningDecl.overridden (d : MeaningDecl) : List Text := (d.methods.filter (·.isOverride)).map (·.name)
def MeaningDecl.defined (d : MeaningDecl) : List Text := (d.methods.filter (!·.isOverride)).map (·.name)

namespace Analysis

variable {a : Analysis} {settings : Settings} {code : FileCode}

/-! ### The part of a meaning -/

theorem Complete.methods_codeOf (ha : a.Complete) (hcode : a.fileCode settings = .ok code) {p root : Profile}
    {below : List Profile} {methods : List MethodCode} (hp : p ∈ a.profiles)
    (hpart : a.codeOf p root below methods ∈ code.meanings) :
    methods.map (·.name) = p.methods.map (·.name) ∧ ∀ g ∈ methods, g.meaning = p.name := by
  have hmethods := ha.mapM_methods hcode hp hpart
  have hone : ∀ f g, a.methodCode p f = .ok g → f.name = g.name ∧ g.meaning = p.name := by
    intro f g hg
    obtain ⟨t, -, hg'⟩ := ha.exists_methodCode p f
    rw [hg] at hg'
    cases hg'
    exact ⟨rfl, rfl⟩
  refine ⟨?_, fun g hg => ?_⟩
  · have hnames := (mapM_eq_ok_iff.1 hmethods).imp fun f g hg => (hone f g hg).1
    rw [eq_comm, ← List.forall₂_eq_eq_eq, List.forall₂_map_left_iff, List.forall₂_map_right_iff]
    exact hnames
  · obtain ⟨f, -, hf⟩ := mem_of_mapM_ok hmethods hg
    exact (hone f g hf).2

/-- What is listed is what the code puts on the handle type. -/
theorem Complete.putsOnHandle (ha : a.Complete) (hcode : a.fileCode settings = .ok code) {p root : Profile}
    {below : List Profile} {methods : List MethodCode} (hp : p ∈ a.profiles)
    (hpart : a.codeOf p root below methods ∈ code.meanings) {name : Text}
    (hname : name ∈ (a.codeOf p root below methods).members ++ (a.codeOf p root below methods).overrideNames) :
    (a.codeOf p root below methods).PutsOnHandle name := by
  obtain ⟨-, hmethods⟩ := ha.methods_codeOf hcode hp hpart
  simp only [MeaningCode.members, MeaningCode.overrideNames, List.mem_append, List.mem_map, List.mem_flatMap] at hname
  rcases hname with (((hname | ⟨d, hd, rfl⟩) | ⟨x, hx, hname⟩) | ⟨g, hg, rfl⟩) | ⟨g, hg, rfl⟩
  · exact MeaningCode.putsOnHandle_handle _ hname
  · obtain ⟨sub, -, rfl⟩ := List.mem_map.1 hd
    obtain ⟨l, hl, hdeclares⟩ := DowncastCode.exists_declaresMethod ⟨p.name, sub, pathTo p "variant"⟩
    have hmem := List.mem_flatMap.2 ⟨_, hd, hl⟩
    exact .inl ⟨l, by simp [MeaningCode.lines, hmem], hdeclares⟩
  · obtain ⟨f, -, rfl⟩ := List.mem_map.1 hx
    obtain ⟨l, hl, hdeclares⟩ := AccessorCode.exists_declaresMethod ⟨p.name, f, pathTo p f.name⟩ hname
    have hmem := List.mem_flatMap.2 ⟨_, hx, hl⟩
    exact .inl ⟨l, by simp [MeaningCode.lines, hmem], hdeclares⟩
  · obtain ⟨l, hl, hdeclares⟩ := g.exists_declaresMethod
    have hmem := List.mem_flatMap.2 ⟨_, hg, hl⟩
    rw [hmethods g hg] at hdeclares
    exact .inl ⟨l, by simp [MeaningCode.lines, hmem], hdeclares⟩
  · obtain ⟨o, -, rfl⟩ := List.mem_map.1 hg
    obtain ⟨l, hl, hdeclares⟩ := (overrideCode p o).exists_declaresMethod
    have hmem := List.mem_flatMap.2 ⟨_, hg, hl⟩
    exact .inl ⟨l, by simp [MeaningCode.lines, hmem], hdeclares⟩

theorem Complete.members_codeOf (ha : a.Complete) (hcode : a.fileCode settings = .ok code) {p root : Profile}
    {below : List Profile} {methods : List MethodCode} (hp : p ∈ a.profiles)
    (hpart : a.codeOf p root below methods ∈ code.meanings) : (a.codeOf p root below methods).members =
      (a.codeOf p root below methods).handle.members ++ p.submeanings.map downcastName ++
        p.fields.flatMap Profile.accessorNames ++ p.methods.map (·.name) := by
  rw [← (ha.methods_codeOf hcode hp hpart).1]
  simp [MeaningCode.members, codeOf, Function.comp_def, List.flatMap_map]

/-- The members other than overrides are all in the table. -/
theorem Complete.members_sublist (ha : a.Complete) (hcode : a.fileCode settings = .ok code) {p root : Profile}
    {below : List Profile} {methods : List MethodCode} (hp : p ∈ a.profiles)
    (hpart : a.codeOf p root below methods ∈ code.meanings) : (a.codeOf p root below methods).members.Sublist
      (p.reservedNames ++ p.fields.flatMap Profile.accessorNames ++ p.methods.map (·.name)) := by
  rw [ha.members_codeOf hcode hp hpart]
  refine ((List.Sublist.append_right ?_ _).append_right _).append_right _
  rw [HandleCode.members]
  show List.Sublist (match p.parent? with | none => _ | some parent => [parent]) _
  cases p.parent? with
  | none => decide
  | some parent => exact List.Sublist.refl _

theorem Complete.members_nodup (ha : a.Complete) (hclean : a.findings = []) (hcode : a.fileCode settings = .ok code)
    {p root : Profile} {below : List Profile} {methods : List MethodCode} (hp : p ∈ a.profiles)
    (hpart : a.codeOf p root below methods ∈ code.meanings) : (a.codeOf p root below methods).members.Nodup := by
  have htaken : (p.reservedNames ++ p.fields.flatMap Profile.accessorNames ++ p.methods.map (·.name)).Nodup := by
    obtain ⟨n, -, above, asc, subs, rfl⟩ := ha.exists_ofDecl hp
    exact Profile.ofDecl_taken (ha.findings_profile hclean hp)
  exact htaken.sublist (ha.members_sublist hcode hp hpart)

/-- An override has the name of another member exactly if that is the parent, a field or a method. -/
theorem Complete.overrideName_notMem_iff (ha : a.Complete) (hcode : a.fileCode settings = .ok code) {p root : Profile}
    {below : List Profile} {methods : List MethodCode} (hp : p ∈ a.profiles)
    (hpart : a.codeOf p root below methods ∈ code.meanings) (m n : Text) :
    overrideName m n ∉ (a.codeOf p root below methods).members ↔
      p.parent? ≠ some (overrideName m n) ∧ overrideName m n ∉ p.fields.map (·.name) ++ p.methods.map (·.name) := by
  obtain ⟨hwords, hdowncast, hsetter⟩ := overrideName_ne m n
  have hhandle : overrideName m n ∉ (a.codeOf p root below methods).handle.members ↔
      p.parent? ≠ some (overrideName m n) := by
    rw [HandleCode.members]
    show overrideName m n ∉ (match p.parent? with | none => _ | some parent => [parent]) ↔ _
    cases p.parent? with
    | none => simpa using hwords
    | some parent => simp [eq_comm]
  rw [ha.members_codeOf hcode hp hpart]
  simp only [List.mem_append, not_or, hhandle, List.mem_map, List.mem_flatMap, Profile.accessorNames, List.mem_cons,
    List.not_mem_nil, or_false, not_exists, not_and]
  constructor
  · rintro ⟨⟨⟨hparent, -⟩, hfields⟩, hmethods⟩
    exact ⟨hparent, fun f hf he => (hfields f hf).1 he.symm, hmethods⟩
  · rintro ⟨hparent, hfields, hmethods⟩
    exact ⟨⟨⟨hparent, fun sub _ he => hdowncast sub he.symm⟩, fun f hf => ⟨fun he => hfields f hf he.symm, hsetter _⟩⟩,
      hmethods⟩

theorem Complete.defined_eq (ha : a.Complete) (hclean : a.findings = []) {p : Profile} (hp : p ∈ a.profiles) :
    p.methods.map (·.name) = p.decl.defined := by
  obtain ⟨-, -, hmethods, -⟩ := ha.profile_clean hclean hp
  rw [MeaningDecl.defined, ← hmethods, List.map_map]
  rfl

theorem Complete.overrideNames_codeOf (ha : a.Complete) (hclean : a.findings = []) {p : Profile} (hp : p ∈ a.profiles)
    (root : Profile) (below : List Profile) (methods : List MethodCode) :
    (a.codeOf p root below methods).overrideNames = p.decl.overridden.map (overrideName p.name) := by
  obtain ⟨-, -, -, hoverrides⟩ := ha.profile_clean hclean hp
  rw [MeaningDecl.overridden, ← hoverrides]
  simp [MeaningCode.overrideNames, codeOf, overrideCode, Function.comp_def]

/-- Names on a handle type.  The code of a meaning puts the names of its overrides beside other members, which are
distinct.  All of them are distinct exactly if the overridden methods differ when they are capitalised, and none of the
overrides has the name of the parent, a field or a method of the meaning. -/
theorem exists_overrides_distinct_iff {file : DeclFile} (h : ofFile settings file = .ok a) (hclean : a.findings = []) :
    ∃ code, a.fileCode settings = .ok code ∧ ∀ d ∈ file.meanings, ∃ part ∈ code.meanings,
      (∀ c ∈ code.meanings, c.handle.meaning = d.name ↔ c = part) ∧
      part.overrideNames = d.overridden.map (overrideName d.name) ∧
      (∀ name ∈ part.members ++ part.overrideNames, part.PutsOnHandle name) ∧ part.members.Nodup ∧
      ((part.members ++ part.overrideNames).Nodup ↔ (d.overridden.map Text.capitalize).Nodup ∧
        ∀ n ∈ d.overridden, a.forest.parent? d.name ≠ some (overrideName d.name n) ∧
          overrideName d.name n ∉ d.fields.map (·.name) ++ d.defined) := by
  obtain ⟨ha, rfl⟩ := complete_of_ofFile h
  obtain ⟨code, hcode⟩ := ha.exists_fileCode settings
  refine ⟨code, hcode, fun d hd => ?_⟩
  obtain ⟨p, hp, rfl, -, root, below, methods, -, hpart⟩ := ha.exists_codeOf hclean hcode hd
  have hnames := ha.overrideNames_codeOf hclean hp root below methods
  have hmembers := ha.members_nodup hclean hcode hp hpart
  refine ⟨_, hpart, ha.part_iff hcode hpart, hnames, fun name hname => ha.putsOnHandle hcode hp hpart hname, hmembers,
    ?_⟩
  rw [hnames, List.nodup_append, map_overrideName_nodup]
  have hdisjoint : (∀ x ∈ (a.codeOf p root below methods).members, ∀ y ∈ p.decl.overridden.map (overrideName p.name),
      x ≠ y) ↔ ∀ n ∈ p.decl.overridden, overrideName p.name n ∉ (a.codeOf p root below methods).members := by
    constructor
    · exact fun hne n hn hmem => hne _ hmem _ (List.mem_map_of_mem hn) rfl
    · rintro hnot x hx y hy rfl
      obtain ⟨n, hn, rfl⟩ := List.mem_map.1 hy
      exact hnot n hn hx
  simp only [hdisjoint, ha.overrideName_notMem_iff hcode hp hpart, hmembers, true_and, ha.parent?_eq hp,
    ha.fieldNames_eq hclean hp, ha.defined_eq hclean hp]
  rfl

/-- Two methods that are overridden, and one that is named like an override. -/
def sketches : DeclFile :=
  let method (name : Text) (isOverride : Bool) : MethodDecl :=
    { position := ⟨1, 1⟩, name, isOverride, doc := [], typeParams := [], params := [], results := [], body := [] }
  let meaning (name parent : Text) (methods : List MethodDecl) : MeaningDecl :=
    { position := ⟨1, 1⟩, name, parent, parentPosition := ⟨1, 1⟩, doc := [], fields := [], constructors := [], methods }
  { name := "sketches.mt"
    meanings := [meaning "A" [] [method "area" false, method "Draw" false],
      meaning "B" "A" [method "area" true, method "Draw" true, method "overrideBMove" false]] }

theorem overrides_distinct_sketches : ∃ a code part, @ofFile .english {} sketches = .ok a ∧ a.findings = [] ∧
    a.fileCode {} = .ok code ∧ part ∈ code.meanings ∧
    part.overrideNames = [Text.ofString "overrideBArea", Text.ofString "overrideBDraw"] ∧
    (part.members ++ part.overrideNames).Nodup := by
  obtain ⟨a, ha, hclean⟩ := exists_clean (by decide +kernel : @cleanInOrder .english {} sketches)
  obtain ⟨code, hcode, hparts⟩ := exists_overrides_distinct_iff ha hclean
  obtain ⟨d, hd, hname, hnames, hcapital, hother⟩ : ∃ d ∈ sketches.meanings, d.name = "B" ∧
      d.overridden.map (overrideName d.name) = [Text.ofString "overrideBArea", Text.ofString "overrideBDraw"] ∧
      (d.overridden.map Text.capitalize).Nodup ∧
      ∀ n ∈ d.overridden, some (Text.ofString "A") ≠ some (overrideName d.name n) ∧
        overrideName d.name n ∉ d.fields.map (·.name) ++ d.defined := by decide +kernel
  obtain ⟨part, hpart, -, hoverrides, -, -, hiff⟩ := hparts d hd
  have hparent : a.forest.parent? d.name = some (Text.ofString "A") := by
    rw [hname, forest_of_ofFile ha]
    decide +kernel
  rw [hparent] at hiff
  exact ⟨a, code, part, ha, hclean, hcode, hpart, hoverrides.trans hnames, hiff.2 ⟨hcapital, hother⟩⟩

/-- Two methods that differ in the first letter only, and a meaning that overrides both. -/
def twins : DeclFile :=
  let method (line : Nat) (name : Text) (isOverride : Bool) : MethodDecl :=
    { position := ⟨line, if isOverride then 14 else 5⟩, name, isOverride, doc := [], typeParams := [], params := []
      results := [], body := [] }
  let meaning (line : Nat) (name parent : Text) (methods : List MethodDecl) : MeaningDecl :=
    { position := ⟨line, 1⟩, name, parent, parentPosition := if parent.isEmpty then ⟨0, 0⟩ else ⟨line, 12⟩, doc := []
      fields := [], constructors := [], methods }
  { name := "a.mt"
    meanings := [meaning 1 "A" [] [method 2 "area" false, method 3 "Area" false],
      meaning 5 "B" "A" [method 6 "area" true, method 7 "Area" true]] }

theorem overrides_collide_twins : ∃ a code part, @ofFile .english {} twins = .ok a ∧ a.findings = [] ∧
    a.fileCode {} = .ok code ∧ part ∈ code.meanings ∧ part.handle.meaning = "B" ∧
    part.overrideNames = [Text.ofString "overrideBArea", Text.ofString "overrideBArea"] ∧
    ¬ part.overrideNames.Nodup := by
  obtain ⟨a, hfile, hclean⟩ := exists_clean (by decide +kernel : @cleanInOrder .english {} twins)
  obtain ⟨ha, hdecls⟩ := complete_of_ofFile hfile
  obtain ⟨code, hcode⟩ := ha.exists_fileCode {}
  obtain ⟨d, hd, hname, hnames⟩ : ∃ d ∈ twins.meanings, d.name = "B" ∧
      d.overridden.map (overrideName d.name) = [Text.ofString "overrideBArea", Text.ofString "overrideBArea"] := by
    decide +kernel
  rw [← hdecls] at hd
  obtain ⟨p, hp, rfl, -, root, below, methods, -, hpart⟩ := ha.exists_codeOf hclean hcode hd
  have hoverrides := ha.overrideNames_codeOf hclean hp root below methods
  have htwice := hoverrides.trans hnames
  exact ⟨a, code, _, hfile, hclean, hcode, hpart, hname, htwice, by rw [htwice]; decide⟩

end Analysis

end MeaningForest

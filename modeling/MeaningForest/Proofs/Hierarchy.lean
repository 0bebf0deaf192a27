import MeaningForest.Object.Info
import MeaningForest.Proofs.Kinds

/-!
# Queries and the declared hierarchy

An object can be asked for its kind in three ways: through the downcasts of its handles, through the information that
the search from its root layer ends with, and through the parents of that information.

* `Complete.exists_info`: the information on a meaning knows the ancestry of the meaning;
* `Complete.printsQueries`: the lines of the file are read back as the queries that are run;
* `exists_tellsKind_iff`: information and search agree with the hierarchy on every object and after any writes, and a
  downcast does so exactly if nothing hides the names in it.
-/

namespace MeaningForest

open Code Text

variable {lang : Language}

namespace Code

/-! ### Information -/

/-- The literals of the information variables. -/
def FileCode.infoLiterals (code : FileCode) : List InfoLiteral := code.meanings.map (·.info.literal)

/-- The record of a literal; its identity is the variable that holds it, and its names are given by expressions. -/
def InfoLiteral.names (i : InfoLiteral) : InfoNames Text :=
  let value (key : Text) := (i.entries.lookup key).getD []
  ⟨i.var, value "Name", value "Package", value "FullName"⟩

/-- A literal of the record type, in which no key stands twice. -/
def InfoLiteral.Formed (i : InfoLiteral) : Prop :=
  i.package = runtimeName ∧ i.type = "Info" ∧ (i.entries.map (·.1)).Nodup

instance (i : InfoLiteral) : Decidable i.Formed := inferInstanceAs (Decidable (_ ∧ _))

/-- The values of the information variables. -/
inductive FileCode.InfoValue (code : FileCode) : Text → Info Text → Prop
  | root {i : InfoLiteral} (hi : i ∈ code.infoLiterals) (hformed : i.Formed)
      (hnone : i.entries.lookup (Text.ofString "Parent") = none) : InfoValue code i.var (.root i.names)
  | sub {i : InfoLiteral} {parent : Text} {j : Info Text} (hi : i ∈ code.infoLiterals) (hformed : i.Formed)
      (hsome : i.entries.lookup (Text.ofString "Parent") = some parent) (hj : InfoValue code parent j) :
      InfoValue code i.var (.sub i.names j)

theorem InfoCode.keys_literal (i : InfoCode) :
    i.literal.entries.map (·.1) <+: ["Name", "Package", "FullName", "Parent"].map Text.ofString := by
  rw [literal]
  cases i.parent with
  | none => exact ⟨[Text.ofString "Parent"], rfl⟩
  | some p => exact List.prefix_rfl

theorem InfoCode.formed_literal (i : InfoCode) : i.literal.Formed := by
  have hkeys : (["Name", "Package", "FullName", "Parent"].map Text.ofString).Nodup := by decide
  exact ⟨rfl, rfl, hkeys.sublist i.keys_literal.sublist⟩

theorem InfoCode.lookup_parent (i : InfoCode) :
    i.literal.entries.lookup (Text.ofString "Parent") = i.parent.map infoName := by
  rw [literal]
  cases i.parent <;> rfl

end Code

namespace Analysis

variable {a : Analysis} {settings : Settings} {code : FileCode}

def infoNames (a : Analysis) (m : Text) : InfoNames Text :=
  ⟨infoName m, m.quote, a.package.quote, (a.package ++ "." ++ m).quote⟩

theorem names_literal (a : Analysis) (m : Text) (parent : Option Text) :
    (⟨m, a.package, parent⟩ : InfoCode).literal.names = a.infoNames m := by
  cases parent <;> rfl

/-- The variable for a meaning has one record, whose parent is the record of the parent. -/
theorem Complete.infoValue_iff (ha : a.Complete) (hclean : a.findings = []) (hcode : a.fileCode settings = .ok code)
    {m : Text} (hm : m ∈ a.forest.names) {j : Info Text} : code.InfoValue (infoName m) j ↔
      (a.forest.parent? m = none ∧ j = .root (a.infoNames m)) ∨
      ∃ p i, a.forest.parent? m = some p ∧ code.InfoValue (infoName p) i ∧ j = .sub (a.infoNames m) i := by
  have hliteral : ∀ i ∈ code.infoLiterals, i.var = infoName m →
      i.entries.lookup (Text.ofString "Parent") = (a.forest.parent? m).map infoName ∧ i.names = a.infoNames m := by
    intro i hi hvar
    obtain ⟨part, hpart, rfl⟩ := List.mem_map.1 hi
    obtain ⟨p, hp, root, below, methods, -, rfl⟩ := ha.exists_part hcode hpart
    obtain rfl : p.name = m := (ha.unambiguous hclean).word_inj (ha.name_mem hp) hm hvar
    rw [← ha.parent?_eq hp]
    exact ⟨InfoCode.lookup_parent _, names_literal a _ _⟩
  constructor
  · intro hj
    generalize hvar : infoName m = var at hj
    cases hj with
    | root hi _ hnone =>
      obtain ⟨hparent, hnames⟩ := hliteral _ hi hvar.symm
      exact .inl ⟨Option.map_eq_none_iff.1 (hparent.symm.trans hnone), by rw [hnames]⟩
    | sub hi _ hsome hj =>
      obtain ⟨hparent, hnames⟩ := hliteral _ hi hvar.symm
      obtain ⟨p, hp, rfl⟩ := Option.map_eq_some_iff.1 (hparent.symm.trans hsome)
      exact .inr ⟨p, _, hp, hj, by rw [hnames]⟩
  · obtain ⟨q, hfind⟩ := ha.exists_profile hm
    obtain ⟨hq, rfl⟩ := mem_of_find hfind
    obtain ⟨root, below, methods, -, -, hpc⟩ := ha.exists_meaningCode hq
    have hi : (⟨q.name, a.package, q.parent?⟩ : InfoCode).literal ∈ code.infoLiterals :=
      List.mem_map.2 ⟨_, (ha.mem_meanings hcode).2 ⟨q, hq, hpc⟩, rfl⟩
    have hlookup := InfoCode.lookup_parent ⟨q.name, a.package, q.parent?⟩
    rw [ha.parent?_eq hq] at hi hlookup
    rintro (⟨hnone, rfl⟩ | ⟨p, i, hsome, hj, rfl⟩)
    · rw [← names_literal a q.name (a.forest.parent? q.name)]
      exact .root hi (InfoCode.formed_literal _) (hlookup.trans (by rw [hnone]; rfl))
    · rw [← names_literal a q.name (a.forest.parent? q.name)]
      exact .sub hi (InfoCode.formed_literal _) (hlookup.trans (by rw [hsome]; rfl)) hj

theorem Complete.exists_info (ha : a.Complete) (hclean : a.findings = []) (hcode : a.fileCode settings = .ok code)
    {m : Text} {asc : List Text} (hasc : Lineage a.forest.parent? m asc) (hm : m ∈ a.forest.names) :
    ∃ i, (∀ j, code.InfoValue (infoName m) j ↔ j = i) ∧ i.ascending = asc.map a.infoNames := by
  induction hasc with
  | @root m hroot =>
    refine ⟨.root (a.infoNames m), fun j => ?_, rfl⟩
    rw [ha.infoValue_iff hclean hcode hm]
    simp [hroot]
  | @child m p l hparent hl ih =>
    obtain ⟨i, hvalue, hi⟩ := ih (ha.sound.closed _ _ hparent)
    refine ⟨.sub (a.infoNames m) i, fun j => ?_, by simp [Info.ascending, hi]⟩
    rw [ha.infoValue_iff hclean hcode hm]
    constructor
    · rintro (⟨hnone, -⟩ | ⟨q, i', hsome, hi', rfl⟩)
      · rw [hparent] at hnone
        cases hnone
      · obtain rfl := Option.some.inj (hparent.symm.trans hsome)
        rw [(hvalue i').1 hi']
    · rintro rfl
      exact .inr ⟨p, i, hparent, (hvalue i).2 rfl, rfl⟩

/-! ### Printed queries -/

/-- The queries of a file are those that its lines are read as; only the comments of the downcasts are left out. -/
structure PrintsQueries (a : Analysis) (code : FileCode) : Prop where
  downcast : ∀ x ∈ code.downcasts, ∃ asc comment, a.forest.ascending x.meaning = .ok asc ∧
    x.lines = line comment :: (x.function asc).lines ∧
    Stands a.file code DowncastFunction.read? (x.function asc).lines (x.function asc)
  search : ∀ f ∈ code.searches, Stands a.file code SearchFunction.read? f.lines f
  tag : ∀ t ∈ code.tagStructs, Stands a.file code TagStruct.read? t.lines t
  information : ∀ i ∈ code.infoLiterals, Stands a.file code InfoLiteral.read? i.lines i
  start : ∀ part ∈ code.meanings, part.handle.parent = none →
    braced (methodHead part.handle.meaning "RuntimeInfo" [] infoType)
      [line (Text.ofString "return " ++ runtimeInfo.text)] <:+: code.lines
  expression : Access.read? runtimeInfo.text = some runtimeInfo

theorem Complete.worded_downcast (ha : a.Complete) (hclean : a.findings = []) (hworded : a.file.Worded) {m s : Text}
    {asc : List Text} (hasc : Lineage a.forest.parent? m asc) (hs : a.forest.parent? s = some m) (variant : CellPath) :
    ((⟨m, s, variant⟩ : DowncastCode).function asc).Worded := by
  have hm := ha.sound.closed _ _ hs
  have hnames : ∀ n ∈ asc, IsIdent n := fun n hn =>
    ha.isIdent hclean hworded (ha.sound.mem_names_of_lineage hasc hn hm)
  have hmeaning := (ha.isIdent hclean hworded hm).word
  have hsub := (ha.isIdent hclean hworded (Forest.mem_names_of_parent? hs)).word
  have hself : IsIdent receiverName := by decide
  have hflag : IsIdent (Text.ofString "ok") := by decide
  refine ⟨?_, hflag.word, ⟨hself, ?_⟩, hflag, ⟨hsub, hself.word⟩, hsub, nofun⟩
  · have hbool : (Text.ofString "bool").IsWord := by decide
    simp [DowncastCode.function, hself.word, hmeaning, isWord_downcastName hsub, hsub, hbool]
  · intro step hstep
    rcases List.mem_append.1 hstep with hstep | hstep
    · refine Step.worded_toCell (fun n hn => hnames n (List.mem_of_mem_dropLast (List.mem_reverse.1 hn))) ?_ (by decide)
        step hstep
      intro tag htag
      obtain ⟨n, n', hpair, rfl⟩ := exists_of_mem_layerTags htag
      have hmem : ∀ x ∈ [n, n'], IsIdent x := fun x hx => hnames x (hpair.subset hx)
      exact isIdent_toLayerName (hmem n (by simp)).word (hmem n' (by simp)).word
    · obtain rfl := List.mem_singleton.1 hstep
      exact isIdent_toLayerName hmeaning hsub

theorem worded_searchFunction {l : LayerCode} (hm : IsIdent l.meaning) (hsubs : ∀ s ∈ l.submeanings, IsIdent s) :
    l.searchFunction.Worded := by
  have hwords : (Text.ofString "l").IsWord ∧ (Text.ofString "runtimeInfo").IsWord ∧ runtimeName.IsWord ∧
      (Text.ofString "Info").IsWord ∧ (Text.ofString "v").IsWord ∧ (Text.ofString "variant").IsWord := by decide
  obtain ⟨hl, hmethod, hpackage, hinfo, hv, hvariant⟩ := hwords
  refine ⟨?_, fun s hs => ?_⟩
  · simp [LayerCode.searchFunction, hl, (isIdent_layerName hm.word).word, hmethod, hpackage, hinfo]
  · rw [LayerCode.searchFunction] at hs
    dsimp only at hs
    split at hs
    · cases hs
    · obtain rfl := Option.some.inj hs
      refine ⟨by simp [LayerCode.typeSwitch, hl, hv, hvariant], fun c hc => ?_⟩
      obtain ⟨t, ht, rfl⟩ := List.mem_map.1 hc
      refine ⟨(isIdent_toLayerName hm.word (hsubs t ht).word).word, (by decide : IsIdent (Text.ofString "v")), ?_⟩
      exact List.forall_mem_cons.2 ⟨(by decide : IsIdent (Text.ofString "next")),
        List.forall_mem_singleton.2 ⟨(by decide : IsIdent (Text.ofString "runtimeInfo")), List.forall_mem_nil _⟩⟩

theorem worded_infoLiteral {i : InfoCode} (hname : IsIdent i.name) : i.literal.Worded := by
  have hwords : runtimeName.IsWord ∧ (Text.ofString "Info").IsWord ∧ (Text.ofString "info").IsWord := by decide
  obtain ⟨hpackage, htype, hinfo⟩ := hwords
  have hkeys : ∀ key ∈ ["Name", "Package", "FullName", "Parent"].map Text.ofString, IsWord key := by decide
  refine ⟨by simp [InfoCode.literal, hpackage, htype, infoName, hinfo.append hname.word.capitalize], fun e he => ?_⟩
  exact hkeys _ (i.keys_literal.subset (List.mem_map_of_mem he))

theorem Complete.printsQueries (ha : a.Complete) (hclean : a.findings = []) (hcode : a.fileCode settings = .ok code) :
    PrintsQueries a code := by
  have hsection : ∀ part ∈ code.meanings, ∀ xs ∈ part.sections, xs <:+: code.lines := fun part hpart xs hxs =>
    (MeaningCode.section_infix hxs).trans (MeaningCode.lines_infix hpart)
  have hnames : a.file.Worded → ∀ p ∈ a.profiles, IsIdent p.name ∧ ∀ s ∈ p.submeanings, IsIdent s := by
    intro hworded p hp
    refine ⟨ha.isIdent hclean hworded (ha.name_mem hp), fun s hs => ?_⟩
    rw [ha.submeanings_eq hp, ha.sound.mem_submeanings] at hs
    exact ha.isIdent hclean hworded (Forest.mem_names_of_parent? hs)
  refine ⟨fun x hx => ?_, fun f hf => ?_, fun t ht => ?_, fun i hi => ?_, fun part hpart hnone => ?_, ?_⟩
  · have hlines : x.lines <:+: code.lines := by
      obtain ⟨part, hpart, hx⟩ := List.mem_flatMap.1 hx
      exact (infix_flatMap_of_mem hx).trans (hsection part hpart _ (by simp [MeaningCode.sections]))
    obtain ⟨p, hp, s, hs, rfl⟩ := (ha.mem_downcasts hcode).1 hx
    obtain ⟨-, -, hasc, -⟩ := ha.exists_root hp
    have hvariant : pathTo p "variant" = ⟨rootLayer p.ascending.dropLast.reverse, layerTags p.ascending, "variant"⟩ :=
      rfl
    obtain ⟨comment, heq⟩ := DowncastCode.lines_eq (d := ⟨p.name, s, pathTo p "variant"⟩) hvariant
    refine ⟨p.ascending, comment, ha.sound.ascending_eq hasc, heq, ?_, fun hworded => ?_⟩
    · exact (heq ▸ List.suffix_cons _ _ : _ <:+ _).isInfix.trans hlines
    · exact DowncastFunction.read?_lines (ha.worded_downcast hclean hworded hasc hs _)
  · obtain ⟨part, hpart, rfl⟩ := List.mem_map.1 hf
    refine ⟨?_, fun hworded => ?_⟩
    · rw [← LayerCode.infoLines_eq]
      have hinfo : part.layer.infoLines <:+ part.layer.lines := List.suffix_append _ _
      exact hinfo.isInfix.trans (hsection part hpart _ (by simp [MeaningCode.sections]))
    · obtain ⟨p, hp, root, below, methods, -, rfl⟩ := ha.exists_part hcode hpart
      obtain ⟨hm, hsubs⟩ := hnames hworded p hp
      exact SearchFunction.read?_lines (worded_searchFunction hm hsubs)
  · obtain ⟨part, hpart, ht⟩ := List.mem_flatMap.1 ht
    obtain ⟨s, hs, rfl⟩ := List.mem_map.1 ht
    refine ⟨?_, fun hworded => ?_⟩
    · refine List.IsInfix.trans ?_ (hsection part hpart part.layer.lines (by simp [MeaningCode.sections]))
      refine List.IsInfix.trans ?_ ((infix_flatMap_of_mem (f := part.layer.tagLines) hs).trans ?_)
      · rw [LayerCode.tagLines_eq]
        exact (List.prefix_append _ _).isInfix
      · exact ⟨part.layer.structLines ++ part.layer.variantLines, part.layer.infoLines, by simp [LayerCode.lines]⟩
    · obtain ⟨p, hp, root, below, methods, -, rfl⟩ := ha.exists_part hcode hpart
      obtain ⟨hm, hsubs⟩ := hnames hworded p hp
      exact TagStruct.read?_lines (isIdent_toLayerName hm.word (hsubs s hs).word).word
        (by decide : (Text.ofString "next").IsWord)
  · obtain ⟨part, hpart, rfl⟩ := List.mem_map.1 hi
    refine ⟨?_, fun hworded => ?_⟩
    · rw [← InfoCode.lines_eq]
      exact hsection part hpart _ (List.mem_cons_self ..)
    · obtain ⟨p, hp, root, below, methods, -, rfl⟩ := ha.exists_part hcode hpart
      exact InfoLiteral.read?_lines (worded_infoLiteral (hnames hworded p hp).1)
  · obtain ⟨comment, hinfo⟩ := part.handle.infoLines_eq
    have hhandle : part.handle.infoLines <:+ part.handle.lines := by
      rw [HandleCode.lines, hnone]
      exact List.suffix_append _ _
    refine (hinfo ▸ List.suffix_cons _ _ : _ <:+ _).isInfix.trans (hhandle.isInfix.trans ?_)
    exact hsection part hpart _ (by simp [MeaningCode.sections])
  · decide

/-! ### Agreement -/

/-- The queries on an object of the given ancestry, through a handle for one of its meanings.  The method of the root
handle gives the information on the object's own meaning.  For a submeaning there is one downcast, and exactly if
nothing hides the names in it, it answers: yes if the submeaning is on the ancestry, with a handle for the same object,
or else no. -/
structure TellsKind {α : Type} (a : Analysis) (code : FileCode) (imported asc : List Text) (d : Text) (m : Memory α)
    (h : HandleValue (Option ObjectHandle)) : Prop where
  information : ∃ root, h.select h.embedded = some root ∧ code.info? m runtimeInfo root = some (infoName d)
  downcasts : ∃ own, a.forest.ascending h.meaning = .ok own ∧ ∀ s ∈ a.forest.submeanings h.meaning,
    ∃ x ∈ code.downcasts, (∀ y ∈ code.downcasts, y.meaning = h.meaning ∧ downcastName y.sub = downcastName s ↔ y = x) ∧
      ((∃ answer ok, (x.function own).run? code imported m h = some (answer, ok) ∧ (ok = true ↔ s ∈ asc) ∧
        (ok = true → answer.Typed code ∧ answer.meaning = s ∧ answer.storage = h.storage)) ↔ code.Unhidden imported s)

/-- The method of the root handle follows the tags of the object to its last layer. -/
theorem Complete.info?_eq (ha : a.Complete) (hclean : a.findings = []) (hcode : a.fileCode settings = .ok code)
    {d : Text} {asc : List Text} (hasc : Lineage a.forest.parent? d asc) (hd : d ∈ a.forest.names) {α : Type}
    {m : Memory α} {o : Layers (FieldCell α)} (hkind : o.OfKind asc) {h : HandleValue (Option ObjectHandle)}
    (ht : h.Typed code) (hmem : h.meaning ∈ asc) (ho : m.objects.get h.storage = .ok o) :
    code.info? m runtimeInfo (.root h.top h.storage) = some (infoName d) := by
  -- the ancestry begins with the meaning of the root handle
  obtain ⟨below, rfl⟩ : ∃ below, asc = h.top :: below := by
    obtain ⟨us, vs, rfl⟩ := List.append_of_mem hmem
    have hup := (ha.lineage_typed hcode ht).unique hasc.of_append_cons
    have htop := h.head?_embedded
    rw [hup] at htop
    cases us with
    | nil => exact ⟨vs, by simpa using htop⟩
    | cons u us => exact ⟨us ++ h.meaning :: vs, by simpa using htop⟩
  have htop := ha.sound.mem_names_of_lineage hasc (List.mem_cons_self ..) hd
  have hsearch := ha.search?_eq hclean hcode hkind htop hasc.isChain hasc.getLast?_eq
  have hself : (HandleValue.root h.top h.storage).select [] = some (.root h.top h.storage) := rfl
  have hroot := m.denotes?_toRoot hself ho
  rw [FileCode.info?]
  have hsteps : runtimeInfo.steps = Step.toRoot [] ++ [.call "runtimeInfo" []] := rfl
  rw [hsteps, List.getLast?_concat, List.dropLast_concat, hroot]
  exact (if_pos rfl).trans hsearch

theorem Complete.tellsKind (ha : a.Complete) (hclean : a.findings = []) (hcode : a.fileCode settings = .ok code)
    {d : Text} {asc : List Text} (hasc : Lineage a.forest.parent? d asc) (hd : d ∈ a.forest.names) {α : Type}
    {m : Memory α} {o : Layers (FieldCell α)} (hkind : o.OfKind asc) {h : HandleValue (Option ObjectHandle)}
    (ht : h.Typed code) (hmem : h.meaning ∈ asc) (ho : m.objects.get h.storage = .ok o) (imported : List Text) :
    TellsKind a code imported asc d m h := by
  refine ⟨⟨_, h.select_embedded, ha.info?_eq hclean hcode hasc hd hkind ht hmem ho⟩, ?_⟩
  obtain ⟨p, hfind⟩ := ha.exists_profile (ha.sound.mem_names_of_lineage hasc hmem hd)
  obtain ⟨hp, hname⟩ := mem_of_find hfind
  obtain ⟨-, -, hself, -⟩ := ha.exists_root hp
  refine ⟨p.ascending, hname ▸ ha.sound.ascending_eq hself, fun s hs => ?_⟩
  rw [← hname] at hs hmem
  rw [ha.sound.mem_submeanings] at hs
  have hrun := ha.run?_downcast hclean hcode hp hs imported ht hname.symm ho hasc hkind hmem
  refine ⟨_, (ha.mem_downcasts hcode).2 ⟨p, hp, s, hs, rfl⟩, fun y hy => ⟨?_, ?_⟩, ?_, fun hunhidden => ?_⟩
  · rintro ⟨hmeaning, hsub⟩
    obtain ⟨q, hq, t, ht', rfl⟩ := (ha.mem_downcasts hcode).1 hy
    obtain rfl := ha.profile_unique hq hp (hmeaning.trans hname.symm)
    obtain rfl := (ha.unambiguous hclean).word_inj (Forest.mem_names_of_parent? ht')
      (Forest.mem_names_of_parent? hs) hsub
    rfl
  · rintro rfl
    exact ⟨hname, rfl⟩
  · rintro ⟨answer, ok, hanswer, -⟩
    by_contra hhidden
    rw [hrun, if_neg hhidden] at hanswer
    cases hanswer
  · rw [if_pos hunhidden] at hrun
    by_cases hmem' : s ∈ asc
    · rw [if_pos hmem'] at hrun
      exact ⟨_, _, hrun, by simp [hmem'], fun _ => ⟨ha.typed_sub hcode (hname ▸ hs) ht, rfl, rfl⟩⟩
    · rw [if_neg hmem'] at hrun
      exact ⟨_, _, hrun, by simp [hmem'], by simp⟩

/-- The queries on every object that the factory of a meaning allocates, after any writes to it: they tell its meaning.
-/
def TellsKinds (a : Analysis) (code : FileCode) (asc : List Text) (d : Text) (c : ConstructorCode) : Prop :=
  ∀ {α : Type} (value : Nat → CellEntry → α) (m : Memory α) (arena : Nat), m.objects.isReleased arena = false →
    ∃ self m', c.allocation.make? value arena m = some (self, m') ∧
      (∀ n ∈ asc, ∃ path inner, self.select path = some inner ∧ inner.Typed code ∧ inner.meaning = n ∧
        inner.storage = self.storage) ∧
      ∀ handle, ForObject code asc self.storage handle → ∀ ws : List (AccessorCode × α), ThroughSetters code asc ws →
        ∃ after, ws.foldlM (AccessorCode.set? handle asc) m' = some after ∧
          ∀ imported, ∀ n ∈ asc, TellsKind a code imported asc d after (handle n)

theorem Chain.tellsKinds {asc : List Text} {root : Profile} {below : List Profile} (h : a.Chain asc (root :: below))
    (ha : a.Complete) (hclean : a.findings = []) {d : Text} (hasc : Lineage a.forest.parent? d asc)
    (hd : d ∈ a.forest.names) (hcode : a.fileCode settings = .ok code) {c : ConstructorCode}
    (hroot : c.root = root.name)
    (hbelow : c.below = below.map (·.name))
    (hliteral : c.literal = .ofChain root.name root.fields (below.map fun q => (q.name, q.fields))) :
    TellsKinds a code asc d c := by
  intro α value m arena hopen
  obtain ⟨self, o, m', hmake, -, hinner, hholds, htags, hends, -⟩ :=
    h.exists_object ha hclean hasc hd hcode hroot hbelow hliteral value m hopen
  refine ⟨self, m', hmake, hinner, fun handle hhandle ws hws => ?_⟩
  obtain ⟨after, o', hrun, hafter, htags', hends', -⟩ :=
    h.exists_run ha hclean hasc.nodup hcode hliteral hholds htags hhandle hws
  have hkind : o'.OfKind asc := ⟨htags', by rw [hasc.getLast?_eq, hends', hends, Option.map_some]⟩
  refine ⟨after, hrun, fun imported n hn => ?_⟩
  obtain ⟨ht, hmeaning, hstorage⟩ := hhandle n hn
  have hmem : (handle n).meaning ∈ asc := by rwa [hmeaning]
  exact ha.tellsKind hclean hcode hasc hd hkind ht hmem (hstorage ▸ hafter.object) imported

/-- Run-time kinds.  The queries are printed, and whatever was written to an object that the factory of a meaning
allocates, they tell its meaning; of the downcasts this holds exactly for those that nothing hides a name of.  So does
the information that the variables hold. -/
theorem exists_tellsKind_iff {file : DeclFile} (h : ofFile settings file = .ok a) (hclean : a.findings = []) :
    ∃ code, a.fileCode settings = .ok code ∧ PrintsQueries a code ∧ ∀ d ∈ file.meanings, ∃ asc,
      a.forest.ascending d.name = .ok asc ∧
      (∃ part ∈ code.meanings, (∀ c ∈ code.meanings, c.handle.meaning = d.name ↔ c = part) ∧
        PrintsAllocation file code part.constructors ∧ TellsKinds a code asc d.name part.constructors) ∧
      ∃ i, (∀ j, code.InfoValue (infoName d.name) j ↔ j = i) ∧ i.ascending.map (·.identity) = asc.map infoName ∧
        ∀ b ∈ file.meanings, i.isSubmeaningOf (infoName b.name) = true ↔ b.name ∈ asc.dropLast := by
  obtain ⟨ha, rfl⟩ := complete_of_ofFile h
  obtain ⟨code, hcode⟩ := ha.exists_fileCode settings
  refine ⟨code, hcode, ha.printsQueries hclean hcode, fun d hd => ?_⟩
  obtain ⟨p, hp, rfl, hasc, root, below, methods, hchain, hpart⟩ := ha.exists_codeOf hclean hcode hd
  have hm : p.name ∈ a.forest.names := ha.name_mem hp
  refine ⟨p.ascending, ha.sound.ascending_eq hasc, ⟨_, hpart, ha.part_iff hcode hpart,
    hchain.printsAllocation ha hclean hpart rfl rfl rfl, hchain.tellsKinds ha hclean hasc hm hcode rfl rfl rfl⟩, ?_⟩
  obtain ⟨i, hvalue, hi⟩ := ha.exists_info hclean hcode hasc hm
  have hidentity : ∀ l : List Text, (l.map a.infoNames).map (·.identity) = l.map infoName := by
    intro l
    rw [List.map_map]
    rfl
  refine ⟨i, hvalue, by rw [hi, hidentity], fun b hb => ?_⟩
  rw [Info.isSubmeaningOf_iff, hi, ← List.map_dropLast, hidentity, List.mem_map]
  constructor
  · rintro ⟨n, hn, heq⟩
    have hn' := ha.sound.mem_names_of_lineage hasc (List.mem_of_mem_dropLast hn) hm
    obtain rfl := (ha.unambiguous hclean).word_inj hn' (ha.mem_names_of_decl hclean hb) heq
    exact hn
  · exact fun hb => ⟨_, hb, rfl⟩

/-- Generated names are none of those that every file knows; so only meanings and the arena type can hide these. -/
theorem Complete.unhidden_iff (ha : a.Complete) (hcode : a.fileCode settings = .ok code) {imported : List Text}
    {s : Text} : code.Unhidden imported s ↔ s ∉ [Text.ofString "ok", receiverName] ∧
      ∀ name ∈ ["bool", "true", "false"].map Text.ofString,
        name ∉ a.arena :: a.forest.names ∧ name ∉ imported := by
  have hgenerated : ∀ m, ∀ name ∈ ["bool", "true", "false"].map Text.ofString, name ∉ a.forest.topLevel m := by
    intro m
    simp only [List.map_cons, List.map_nil, List.forall_mem_cons]
    refine ⟨?_, ?_, ?_, nofun⟩ <;>
      simp [Forest.topLevel, topLevelNames, layerName, variantName, terminalName, infoName, ctorName, initName, newName,
        toLayerName, Text.ofString, String.utf8EncodeChar]
  have hmem : ∀ name ∈ ["bool", "true", "false"].map Text.ofString,
      name ∈ code.packageNames ↔ name ∈ a.arena :: a.forest.names := by
    intro name hname
    rw [ha.mem_packageNames_iff hcode, List.mem_cons]
    refine or_congr_right ⟨?_, fun hm => ⟨name, hm, List.mem_cons_self ..⟩⟩
    rintro ⟨m, hm, hin⟩
    rcases List.mem_cons.1 hin with rfl | hin
    · exact hm
    · exact absurd hin (hgenerated m name hname)
  rw [FileCode.Unhidden]
  refine and_congr_right' (forall₂_congr fun name hname => ?_)
  rw [hmem name hname]

/-- A meaning with a parent, a sibling and a submeaning. -/
def figures : DeclFile :=
  let meaning (name parent : Text) : MeaningDecl :=
    { position := ⟨1, 1⟩, name, parent, parentPosition := ⟨1, 1⟩, doc := [], fields := [], constructors := []
      methods := [] }
  { name := "figures.mt"
    meanings := [meaning "Figure" [], meaning "Circle" "Figure", meaning "Square" "Figure", meaning "Disc" "Circle"] }

theorem tellsKind_figures : ∃ a code part, @ofFile .english {} figures = .ok a ∧ a.findings = [] ∧
    a.fileCode {} = .ok code ∧ figures.Worded ∧ PrintsQueries a code ∧ part ∈ code.meanings ∧
    TellsKinds a code ["Figure", "Circle"] "Circle" part.constructors ∧
    (∀ s ∈ a.forest.names, code.Unhidden [runtimeName] s) ∧
    ∃ i, code.InfoValue (infoName "Circle") i ∧ i.isSubmeaningOf (infoName "Figure") = true ∧
      i.isSubmeaningOf (infoName "Square") = false := by
  obtain ⟨a, hfile, hclean⟩ := exists_clean (by decide +kernel : @cleanInOrder .english {} figures)
  obtain ⟨code, hcode, hprints, hkinds⟩ := exists_tellsKind_iff hfile hclean
  obtain ⟨d, hd, hname⟩ : ∃ d ∈ figures.meanings, d.name = "Circle" := by decide +kernel
  obtain ⟨asc, hasc, ⟨part, hpart, -, -, htells⟩, i, hi, -, hsub⟩ := hkinds d hd
  rw [hname] at hasc htells hi
  have htwo : a.forest.ascending "Circle" = .ok ["Figure", "Circle"] := by
    rw [forest_of_ofFile hfile]
    decide +kernel
  obtain rfl := Except.ok.inj (hasc.symm.trans htwo)
  obtain ⟨ha, hdecls⟩ := complete_of_ofFile hfile
  have hunhidden : ∀ s ∈ a.forest.names, code.Unhidden [runtimeName] s := by
    have hdecide : ∀ s ∈ (@Forest.ofDecls .english (arenaOf {} figures) figures.meanings).1.names,
        s ∉ [Text.ofString "ok", receiverName] ∧ ∀ name ∈ ["bool", "true", "false"].map Text.ofString,
          name ∉ arenaOf {} figures :: (@Forest.ofDecls .english (arenaOf {} figures) figures.meanings).1.names ∧
            name ∉ [runtimeName] := by
      decide +kernel
    intro s hs
    rw [ha.unhidden_iff hcode, arena_of_ofFile hfile, forest_of_ofFile hfile]
    exact hdecide s (forest_of_ofFile hfile ▸ hs)
  obtain ⟨b, hb, hbname⟩ : ∃ b ∈ figures.meanings, b.name = "Figure" := by decide +kernel
  obtain ⟨c, hc, hcname⟩ : ∃ c ∈ figures.meanings, c.name = "Square" := by decide +kernel
  have hb' := (hsub b hb).2 (by rw [hbname]; decide)
  have hc' := mt (hsub c hc).1 (by rw [hcname]; decide)
  rw [hbname] at hb'
  rw [hcname, Bool.not_eq_true] at hc'
  exact ⟨a, code, part, hfile, hclean, hcode, by decide +kernel, hprints, hpart, htells, hunhidden, i, (hi i).2 rfl,
    hb', hc'⟩

/-- A submeaning that is called like the local variable of its downcast. -/
def nods : DeclFile :=
  let meaning (line : Nat) (name parent : Text) (column : Nat) : MeaningDecl :=
    { position := ⟨line, 1⟩, name, parent, parentPosition := ⟨if parent.isEmpty then 0 else line, column⟩, doc := []
      fields := [], constructors := [], methods := [] }
  { name := "a.mt", meanings := [meaning 1 "Reply" [] 0, meaning 2 "ok" "Reply" 13] }

/-- In its own downcast the name of such a submeaning stands for a flag, so on no handle there is an answer. -/
theorem tellsKind_fails_nods : ∃ a code x, @ofFile .english {} nods = .ok a ∧ a.findings = [] ∧
    a.fileCode {} = .ok code ∧ a.forest.ascending "Reply" = .ok ["Reply"] ∧ x ∈ code.downcasts ∧ x.meaning = "Reply" ∧
    x.sub = "ok" ∧ x.lines.tail = [⟨"func (self Reply) ToOk() (ok, bool) \x7b", 0⟩,
      ⟨"if _, ok := self.root.Get().variant.(layerReplyToOk); ok \x7b", 1⟩, ⟨"return ok\x7bself\x7d, true", 2⟩,
        ⟨"\x7d", 1⟩,
      ⟨"return ok\x7b\x7d, false", 1⟩, ⟨"\x7d", 0⟩, blank] ∧
    ∀ imported, ∀ {α : Type} (m : Memory α) (h : HandleValue (Option ObjectHandle)),
      (x.function ["Reply"]).run? code imported m h = none := by
  obtain ⟨a, hfile, hclean⟩ := exists_clean (by decide +kernel : @cleanInOrder .english {} nods)
  obtain ⟨ha, hdecls⟩ := complete_of_ofFile hfile
  obtain ⟨code, hcode⟩ := ha.exists_fileCode {}
  have hparent : a.forest.parent? "ok" = some "Reply" := by
    rw [forest_of_ofFile hfile]
    decide +kernel
  have hone : a.forest.ascending "Reply" = .ok ["Reply"] := by
    rw [forest_of_ofFile hfile]
    decide +kernel
  obtain ⟨p, hfind⟩ := ha.exists_profile (ha.sound.closed _ _ hparent)
  obtain ⟨hp, hname⟩ := mem_of_find hfind
  obtain ⟨-, -, hasc, -⟩ := ha.exists_root hp
  have hascending : p.ascending = [Text.ofString "Reply"] :=
    Except.ok.inj ((ha.sound.ascending_eq hasc).symm.trans ((congrArg _ hname).trans hone))
  have hparent' : a.forest.parent? "ok" = some p.name := hparent.trans (congrArg some hname.symm)
  have hx := (ha.mem_downcasts hcode).2 ⟨p, hp, "ok", hparent', rfl⟩
  have hhidden : ∀ imported, ¬ code.Unhidden imported "ok" := fun imported h => h.1 (List.mem_cons_self ..)
  have hlines : (⟨p.name, "ok", pathTo p "variant"⟩ : DowncastCode) =
      ⟨Text.ofString "Reply", "ok", ⟨rootLayer [], [], "variant"⟩⟩ := by
    rw [pathTo, hascending, hname]
    rfl
  refine ⟨a, code, _, hfile, hclean, hcode, hone, hx, hname, rfl, ?_, fun imported α m h => ?_⟩
  · rw [hlines]
    decide +kernel
  · have hresolves := mt (ha.resolves_iff hcode hp hparent' imported).1 (hhidden imported)
    rw [hascending] at hresolves
    exact if_neg fun h => hresolves h.2.1

end Analysis

end MeaningForest

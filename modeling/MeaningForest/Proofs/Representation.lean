import MeaningForest.Proofs.Objects
import MeaningForest.Proofs.Worded

/-!
# The layered representation

The factory of a meaning makes an object with one layer for each meaning of the ancestry, and the accessors of these
meanings evaluate expressions for its cells.  What an accessor writes is what the accessor of the same field reads.

* `Code.AccessorCode.lines_eq`: an accessor is printed as a method that reads a cell and one that writes it;
* `Leads.call?_setter`, `Leads.call?_getter`: on an object of the ancestry these methods concern the cell of the field;
* `exists_faithful`: after any writes a getter reads what its own setter wrote last, or else the initial value.
-/

namespace MeaningForest

open Code Text

variable {lang : Language}

namespace Code

/-- The getters and setters of a generated file. -/
def FileCode.accessors (c : FileCode) : List AccessorCode := c.meanings.flatMap (·.accessors)

theorem layerTags_prefix (l r : List Text) : layerTags l <+: layerTags (l ++ r) := by
  induction l with
  | nil => exact List.nil_prefix
  | cons a l ih =>
    cases l with
    | nil => exact List.nil_prefix
    | cons b l => simpa [layerTags] using ih

theorem length_layerTags (l : List Text) : (layerTags l).length = l.length - 1 := by
  induction l with
  | nil => rfl
  | cons a l ih =>
    cases l with
    | nil => rfl
    | cons b l => simpa [layerTags] using ih

/-! ### Printed accessors -/

namespace AccessorCode

variable (x : AccessorCode) (asc : List Text)

/-- How many layers are above that of the meaning, in objects of an ancestry. -/
def depth : Nat := asc.idxOf x.meaning

/-- The steps from a handle of the meaning to the cell: through the handles of its ancestors, then along their layers.
-/
def steps : List Step :=
  Step.toCell (asc.take (x.depth asc)).reverse (layerTags (asc.take (x.depth asc + 1))) x.field.name

/-- The expressions that the two methods evaluate. -/
def getter : Access := ⟨receiverName, x.steps asc ++ [.call x.readWord []]⟩
def setter : Access := ⟨receiverName, x.steps asc ++ [.call x.writeWord "v"]⟩

variable {x asc}

theorem lines_eq (hcell : x.cell = ⟨rootLayer (asc.take (x.depth asc)).reverse,
    layerTags (asc.take (x.depth asc + 1)), x.field.name⟩) :
    x.lines = braced (x.receiver ++ x.field.name ++ "() " ++ x.field.type) [line ("return " ++ (x.getter asc).text)] ++
      braced (x.receiver ++ setterName x.field.name ++ "(v " ++ x.field.type ++ ")") [line (x.setter asc).text] := by
  have hcall : ∀ method argument : Text, x.cell.text ++ "." ++ method ++ "(" ++ argument ++ ")" =
      (⟨receiverName, x.steps asc ++ [.call method argument]⟩ : Access).text := by
    intro method argument
    have hmarks : Text.ofString "." = [0x2e] ∧ Text.ofString "(" = [0x28] ∧ Text.ofString ")" = [0x29] := by decide
    obtain ⟨hdot, hopen, hclose⟩ := hmarks
    rw [hcell, CellPath.text_eq, Access.text, Access.text, steps, List.flatMap_append, hdot, hopen, hclose]
    simp [Step.text]
  have hget := hcall x.readWord []
  have hset := hcall x.writeWord "v"
  have hempty : Text.ofString "()" = Text.ofString "(" ++ [] ++ Text.ofString ")" := by decide
  have hparam : Text.ofString "(v)" = Text.ofString "(" ++ Text.ofString "v" ++ Text.ofString ")" := by decide
  rw [lines, getter, setter, ← hget, ← hset, hempty, hparam]
  simp

/-- The names in an accessor are words if those of the ancestry and of the field are. -/
theorem worded_steps (hasc : ∀ m ∈ asc, IsIdent m) (hfield : IsIdent x.field.name) : ∀ s ∈ x.steps asc, s.Worded := by
  refine Step.worded_toCell (fun m hm => hasc m (List.mem_of_mem_take (List.mem_reverse.1 hm)))
    (fun tag htag => ?_) hfield
  obtain ⟨m, n, hpair, rfl⟩ := exists_of_mem_layerTags htag
  have hmem : ∀ x ∈ [m, n], IsIdent x := fun x hx => hasc x (List.mem_of_mem_take (hpair.subset hx))
  exact isIdent_toLayerName (hmem m (by simp)).word (hmem n (by simp)).word

theorem worded_call (hasc : ∀ m ∈ asc, IsIdent m) (hfield : IsIdent x.field.name) {method argument : Text}
    (hmethod : IsIdent method) (hargument : argument.IsWord) :
    (⟨receiverName, x.steps asc ++ [.call method argument]⟩ : Access).Worded := by
  refine ⟨(by decide : IsIdent receiverName), fun s hs => ?_⟩
  rcases List.mem_append.1 hs with hs | hs
  · exact worded_steps hasc hfield s hs
  · obtain rfl := List.mem_singleton.1 hs
    exact ⟨hmethod, hargument⟩

theorem isIdent_readWord : IsIdent x.readWord := by
  rw [readWord]
  split <;> decide

theorem isIdent_writeWord : IsIdent x.writeWord := by
  rw [writeWord]
  split <;> decide

/-- What the two methods evaluate is read back from their lines. -/
theorem read?_getter (hasc : ∀ m ∈ asc, IsIdent m) (hfield : IsIdent x.field.name) :
    Access.read? (x.getter asc).text = some (x.getter asc) :=
  (worded_call hasc hfield x.isIdent_readWord (by decide)).read?_text

theorem read?_setter (hasc : ∀ m ∈ asc, IsIdent m) (hfield : IsIdent x.field.name) :
    Access.read? (x.setter asc).text = some (x.setter asc) :=
  (worded_call hasc hfield x.isIdent_writeWord (by decide)).read?_text

end AccessorCode

/-! ### Printed allocations -/

namespace LayerLiteral

theorem mem_places_ofChain {p : Profile} {below : List Profile} {us vs : List Profile} {q : Profile}
    (hsplit : p :: below = us ++ q :: vs) {f : FieldSlot} (hf : f ∈ q.fields) :
    (us.length, f) ∈ (ofChain p.name p.fields (below.map fun q => (q.name, q.fields))).places := by
  induction below generalizing p us with
  | nil =>
    cases us with
    | nil =>
      obtain ⟨rfl, -⟩ := List.cons.inj hsplit
      exact List.mem_map_of_mem hf
    | cons u us => exact absurd (congrArg List.length hsplit) (by simp)
  | cons b below ih =>
    cases us with
    | nil =>
      obtain ⟨rfl, -⟩ := List.cons.inj hsplit
      exact List.mem_append_left _ (List.mem_map_of_mem hf)
    | cons u us =>
      obtain ⟨rfl, hrest⟩ := List.cons.inj hsplit
      exact List.mem_append_right _ (List.mem_map.2 ⟨_, ih hrest, rfl⟩)

theorem tags_ofChain (p : Profile) (below : List Profile) :
    (ofChain p.name p.fields (below.map fun q => (q.name, q.fields))).tags = layerTags ((p :: below).map (·.name)) := by
  induction below generalizing p with
  | nil => rfl
  | cons b below ih => exact congrArg (_ :: ·) (ih b)

theorem ends_ofChain {p : Profile} {below : List Profile} {m : Text}
    (hlast : ((p :: below).map (·.name)).getLast? = some m) :
    (ofChain p.name p.fields (below.map fun q => (q.name, q.fields))).ends = terminalName m := by
  induction below generalizing p with
  | nil =>
    obtain rfl := Option.some.inj hlast
    rfl
  | cons b below ih => exact ih hlast

theorem named_ofChain {p : Profile} {below : List Profile}
    (h : ∀ q ∈ p :: below, Composite.Named (q.fields.map (·.name))) :
    (ofChain p.name p.fields (below.map fun q => (q.name, q.fields))).Named := by
  induction below generalizing p with
  | nil => exact h p (by simp)
  | cons b below ih => exact ⟨h p (by simp), ih fun q hq => h q (by simp [hq])⟩

theorem worded_ofChain {p : Profile} {below : List Profile} (hnames : ∀ q ∈ p :: below, IsIdent q.name)
    (hfields : ∀ q ∈ p :: below, ∀ f ∈ q.fields, IsIdent f.name) :
    (ofChain p.name p.fields (below.map fun q => (q.name, q.fields))).composite.Worded := by
  have hcells : ∀ q ∈ p :: below, ∀ e ∈ q.fields.map CellEntry.ofField, e.Worded := by
    intro q hq e he
    obtain ⟨f, hf, rfl⟩ := List.mem_map.1 he
    exact CellEntry.worded_ofField (hfields q hq f hf).word
  induction below generalizing p with
  | nil => exact ⟨hcells p (by simp), (isIdent_terminalName (hnames p (by simp)).word).word⟩
  | cons b below ih =>
    have hp := (hnames p (by simp)).word
    have hb := (hnames b (by simp)).word
    refine ⟨hcells p (by simp), (isIdent_toLayerName hp hb).word, (isIdent_layerName hb).word, ih ?_ ?_ ?_⟩
    · exact fun q hq => hnames q (by simp [hq])
    · exact fun q hq => hfields q (by simp [hq])
    · exact fun q hq => hcells q (by simp [hq])

end LayerLiteral

theorem ConstructorCode.worded_allocation {c : ConstructorCode} (hroot : IsIdent c.root)
    (hbelow : ∀ m ∈ c.below, IsIdent m) (hliteral : c.literal.composite.Worded) : c.allocation.Worded := by
  have harena : IsIdent (Text.ofString "arena") := by decide
  have hobject : IsIdent (Text.ofString "cto") := by decide
  refine ⟨(isIdent_freeName hobject _).word, fun m hm => ?_, (by decide : IsIdent runtimeName),
    isIdent_freeName harena _, isIdent_layerName hroot.word, hliteral⟩
  rcases List.mem_append.1 hm with hm | hm
  · exact hbelow m (List.mem_reverse.1 hm)
  · obtain rfl := List.mem_singleton.1 hm
    exact hroot

theorem ConstructorCode.allocation_infix (c : ConstructorCode) : indented c.allocation.lines <:+: c.newLines := by
  refine (infix_braced ?_).trans (List.suffix_cons _ _).isInfix
  rw [allocationLines_eq, List.append_assoc]
  exact (List.prefix_append _ _).isInfix

theorem ConstructorCode.newLines_infix {part : MeaningCode} {code : FileCode} (h : part ∈ code.meanings) :
    part.constructors.newLines <:+: code.lines :=
  (List.suffix_append _ _).isInfix.trans (ConstructorCode.lines_infix h)

theorem AccessorCode.lines_infix {code : FileCode} {x : AccessorCode} (h : x ∈ code.accessors) :
    x.lines <:+: code.lines := by
  obtain ⟨part, hpart, hx⟩ := List.mem_flatMap.1 h
  have hsection : part.accessors.flatMap (·.lines) ∈ part.sections := by simp [MeaningCode.sections]
  exact (infix_flatMap_of_mem hx).trans ((MeaningCode.section_infix hsection).trans (MeaningCode.lines_infix hpart))

/-! ### Runs of accessors -/

/-- What the accessors of a meaning need: the expression leads from a handle to the cell of the field in objects of the
ancestry. -/
structure AccessorCode.Leads (x : AccessorCode) (asc : List Text) (h : HandleValue (Option ObjectHandle))
    (r : Option ObjectHandle) : Prop where
  handle : ∃ root, h.select (asc.take (x.depth asc)).reverse = some (.root root r)
  tags : layerTags (asc.take (x.depth asc + 1)) <+: layerTags asc
  depth : (layerTags (asc.take (x.depth asc + 1))).length = x.depth asc
  cell : x.field.name ≠ Text.ofString "variant"

theorem notMem_parameters_of_layerTags (l : List Text) (v : Option α) :
    ∀ tag ∈ layerTags l, tag ∉ Memory.parameters v := by
  intro tag htag
  obtain ⟨m, n, -, rfl⟩ := exists_of_mem_layerTags htag
  rw [Memory.parameters]
  split <;> simp [toLayerName, layerName, receiverName, Text.ofString, String.utf8EncodeChar]

namespace AccessorCode.Leads

variable {α : Type} {x : AccessorCode} {asc : List Text} {h : HandleValue (Option ObjectHandle)}
  {r : Option ObjectHandle} {m : Memory α} {o : Layers (FieldCell α)} {places : List (Nat × FieldSlot)}

/-- Both methods call a method of the cell at the place of the field. -/
theorem run?_eq (hx : x.Leads asc h r) (hm : m.Holds r o places) (htags : o.tags = layerTags asc)
    (hplace : (x.depth asc, x.field) ∈ places) (method : Text) (v : Option α) : ∃ c,
      o.cellAt (x.depth asc) x.field.name = some c ∧
      m.run? h v ⟨receiverName, x.steps asc ++ [.call method (if v.isSome then Text.ofString "v" else [])]⟩ =
        m.call? (.cell r (x.depth asc) x.field.name c) method v := by
  obtain ⟨c, hcell, -, -⟩ := hm.cells _ hplace
  obtain ⟨root, hselect⟩ := hx.handle
  have hcell' : o.cellAt (layerTags (asc.take (x.depth asc + 1))).length x.field.name = some c := hx.depth.symm ▸ hcell
  have hrun := Memory.run?_toCell hselect hm.object (htags ▸ hx.tags) hx.cell hcell' method v
    (notMem_parameters_of_layerTags _ v)
  rw [hx.depth] at hrun
  exact ⟨c, hcell, hrun⟩

/-- A getter gives the content of the place of its field. -/
theorem run?_getter (hx : x.Leads asc h r) (hm : m.Holds r o places) (htags : o.tags = layerTags asc)
    (hplace : (x.depth asc, x.field) ∈ places) : ∃ v, m.contentAt o (x.depth asc, x.field) = some v ∧
      m.run? h none (x.getter asc) = some (some v, m) := by
  obtain ⟨c, hcell, hrun⟩ := hx.run?_eq hm htags hplace x.readWord none
  obtain ⟨c', v, hcell', hcontent, hcall⟩ := hm.call?_read hplace
  obtain rfl := Option.some.inj (hcell.symm.trans hcell')
  exact ⟨v, hcontent, hrun.trans hcall⟩

/-- A setter changes the place of its field, and no other. -/
theorem run?_setter (hx : x.Leads asc h r) (hm : m.Holds r o places) (htags : o.tags = layerTags asc)
    (hplace : (x.depth asc, x.field) ∈ places) (v : α) : ∃ result m' o',
      m.run? h (some v) (x.setter asc) = some (result, m') ∧ m'.Holds r o' places ∧ o'.tags = layerTags asc ∧
      o'.ends = o.ends ∧ ∀ t ∈ places, m'.contentAt o' t =
        if t.1 = x.depth asc ∧ t.2.name = x.field.name then some v else m.contentAt o t := by
  obtain ⟨c, hcell, hrun⟩ := hx.run?_eq hm htags hplace x.writeWord (some v)
  obtain ⟨c', result, m', o', hcell', hcall, hm', htags', hends, hcontent⟩ := hm.call?_write hplace v
  obtain rfl := Option.some.inj (hcell.symm.trans hcell')
  exact ⟨result, m', o', hrun.trans hcall, hm', htags'.trans htags, hends, hcontent⟩

end AccessorCode.Leads

/-- Runs the setter of an accessor with a value, on the handle that is given for its meaning. -/
def AccessorCode.set? {α : Type} (handle : Text → HandleValue (Option ObjectHandle)) (asc : List Text) (m : Memory α)
    (w : AccessorCode × α) : Option (Memory α) :=
  (m.run? (handle w.1.meaning) (some w.2) (w.1.setter asc)).map (·.2)

/-- After any writes the place of an accessor has what was last written to it, or what it had at first. -/
theorem AccessorCode.exists_run {α : Type} {handle : Text → HandleValue (Option ObjectHandle)} {asc : List Text}
    {r : Option ObjectHandle} {places : List (Nat × FieldSlot)} {xs : List AccessorCode}
    (hleads : ∀ x ∈ xs, x.Leads asc (handle x.meaning) r) (hplaces : ∀ x ∈ xs, (x.depth asc, x.field) ∈ places)
    (hdistinct : ∀ x ∈ xs, ∀ y ∈ xs, x.depth asc = y.depth asc → x.field.name = y.field.name → x = y)
    {m : Memory α} {o : Layers (FieldCell α)} (hm : m.Holds r o places) (htags : o.tags = layerTags asc)
    {ws : List (AccessorCode × α)} (hws : ∀ w ∈ ws, w.1 ∈ xs) : ∃ m' o', ws.foldlM (set? handle asc) m = some m' ∧
      m'.Holds r o' places ∧ o'.tags = layerTags asc ∧ o'.ends = o.ends ∧
        ∀ x ∈ xs, m'.contentAt o' (x.depth asc, x.field) =
        ((ws.filter fun w => w.1 = x).getLast?.map Prod.snd).or (m.contentAt o (x.depth asc, x.field)) := by
  induction ws generalizing m o with
  | nil => exact ⟨m, o, rfl, hm, htags, rfl, fun x _ => rfl⟩
  | cons w ws ih =>
    obtain ⟨hw, hws⟩ := List.forall_mem_cons.1 hws
    obtain ⟨result, m₁, o₁, hset, hm₁, htags₁, hends₁, hcontent⟩ :=
      (hleads w.1 hw).run?_setter hm htags (hplaces w.1 hw) w.2
    obtain ⟨m₂, o₂, hrun, hm₂, htags₂, hends₂, hcontent₂⟩ := ih hm₁ htags₁ hws
    refine ⟨m₂, o₂, ?_, hm₂, htags₂, hends₂.trans hends₁, fun x hx => ?_⟩
    · rw [List.foldlM_cons, set?, hset]
      exact hrun
    · rw [hcontent₂ x hx, hcontent _ (hplaces x hx), List.filter_cons]
      by_cases hxw : w.1 = x
      · subst hxw
        simp only [decide_true, ↓reduceIte, and_self, List.getLast?_cons, Option.map_some]
        cases (ws.filter fun y => y.1 = w.1).getLast? <;> simp
      · have hne : ¬ (x.depth asc = w.1.depth asc ∧ x.field.name = w.1.field.name) := fun heq =>
          hxw (hdistinct x hx w.1 hw heq.1 heq.2).symm
        simp [hxw, hne]

end Code

namespace Analysis

variable {a : Analysis} {settings : Settings} {code : FileCode} {asc : List Text} {ps : List Profile}

/-! ### Accessors along an ancestry -/

theorem Complete.mem_accessors (ha : a.Complete) (hcode : a.fileCode settings = .ok code) {x : AccessorCode} :
    x ∈ code.accessors ↔ ∃ p ∈ a.profiles, ∃ f ∈ p.fields, x = ⟨p.name, f, pathTo p f.name⟩ := by
  rw [FileCode.accessors, List.mem_flatMap]
  constructor
  · rintro ⟨c, hc, hx⟩
    obtain ⟨p, hp, root, below, methods, -, rfl⟩ := ha.exists_part hcode hc
    obtain ⟨f, hf, rfl⟩ := List.mem_map.1 hx
    exact ⟨p, hp, f, hf, rfl⟩
  · rintro ⟨p, hp, f, hf, rfl⟩
    obtain ⟨root, below, methods, -, -, hpc⟩ := ha.exists_meaningCode hp
    exact ⟨_, (ha.mem_meanings hcode).2 ⟨p, hp, hpc⟩, List.mem_map_of_mem hf⟩

/-- No field has the name of the tag. -/
theorem Chain.named (h : a.Chain asc ps) (ha : a.Complete) (hclean : a.findings = []) {p : Profile} (hp : p ∈ ps) :
    Composite.Named (p.fields.map (·.name)) := by
  obtain ⟨us, vs, hps⟩ := List.append_of_mem hp
  refine List.nodup_cons.2 ⟨?_, (h.consistent hps).fields_nodup⟩
  intro hmem
  obtain ⟨f, hf, hname⟩ := List.mem_map.1 hmem
  exact h.field_ne_reserved ha hclean hp hf (by simp) hname

/-- An accessor for objects of an ancestry belongs to a profile of the chain, and its path is that of its depth. -/
theorem Chain.exists_accessor (h : a.Chain asc ps) (ha : a.Complete) (hnd : asc.Nodup)
    (hcode : a.fileCode settings = .ok code) {x : AccessorCode} (hx : x ∈ code.accessors) (hmem : x.meaning ∈ asc) :
    ∃ us p vs, ps = us ++ p :: vs ∧ ∃ f ∈ p.fields, x = ⟨p.name, f, pathTo p f.name⟩ ∧ x.depth asc = us.length ∧
      x.cell = ⟨rootLayer (asc.take (x.depth asc)).reverse, layerTags (asc.take (x.depth asc + 1)), x.field.name⟩ := by
  obtain ⟨p, hp, f, hf, rfl⟩ := (ha.mem_accessors hcode).1 hx
  rw [← h.names_eq] at hmem
  obtain ⟨q, hq, hname⟩ := List.mem_map.1 hmem
  obtain rfl := ha.profile_unique (h.mem_profiles hq) hp hname
  obtain ⟨us, vs, hps⟩ := List.append_of_mem hq
  have hasc : asc = us.map (·.name) ++ q.name :: vs.map (·.name) := by rw [← h.names_eq, hps]; simp
  have hdepth : asc.idxOf q.name = us.length := by
    have hnot : q.name ∉ us.map (·.name) := fun hin =>
      List.disjoint_of_nodup_append (hasc ▸ hnd) hin (List.mem_cons_self ..)
    rw [hasc, List.idxOf_append_of_notMem hnot, List.idxOf_cons_self]
    simp
  have habove : asc.take us.length = us.map (·.name) := by rw [hasc]; simp
  have hself : asc.take (us.length + 1) = us.map (·.name) ++ [q.name] := by rw [hasc]; simp [List.take_append]
  refine ⟨us, q, vs, hps, f, hf, rfl, hdepth, ?_⟩
  rw [AccessorCode.depth, hdepth, habove, hself, pathTo, h.ascending_eq hps]
  simp

/-- A part of a file is in its lines, and read back from them. -/
structure Stands {β : Type} (file : DeclFile) (code : FileCode) (read? : List Line → Option β) (lines : List Line)
    (x : β) : Prop where
  emitted : lines <:+: code.lines
  readable : file.Worded → read? lines = some x

/-- What an accessor is printed as, for objects of an ancestry.  Both methods evaluate an expression that goes through
the handles of the ancestors to the root layer and makes one assertion for each layer above that of the meaning. -/
structure PrintsAccess (file : DeclFile) (code : FileCode) (asc : List Text) (x : AccessorCode) : Prop where
  emitted : x.lines <:+: code.lines
  lines : x.lines =
    braced (x.receiver ++ x.field.name ++ "() " ++ x.field.type) [line ("return " ++ (x.getter asc).text)] ++
      braced (x.receiver ++ setterName x.field.name ++ "(v " ++ x.field.type ++ ")") [line (x.setter asc).text]
  readable : file.Worded → Access.read? (x.getter asc).text = some (x.getter asc) ∧
    Access.read? (x.setter asc).text = some (x.setter asc)
  asserts : ((x.getter asc).steps.filterMap Step.type?).length = asc.idxOf x.meaning ∧
    (x.setter asc).steps.filterMap Step.type? = (x.getter asc).steps.filterMap Step.type?

/-- What a factory is printed with: its allocation of a chain of layers. -/
structure PrintsAllocation (file : DeclFile) (code : FileCode) (c : ConstructorCode) : Prop where
  emitted : c.newLines <:+: code.lines
  lines : indented c.allocation.lines <:+: c.newLines
  readable : file.Worded → Allocation.read? c.allocation.lines = some c.allocation

/-- The handles that are given for the meanings of an ancestry are handles for one object. -/
def ForObject (code : FileCode) (asc : List Text) (r : Option ObjectHandle)
    (handle : Text → HandleValue (Option ObjectHandle)) : Prop :=
  ∀ n ∈ asc, (handle n).Typed code ∧ (handle n).meaning = n ∧ (handle n).storage = r

/-- Writes through setters for objects of an ancestry. -/
def ThroughSetters {α : Type} (code : FileCode) (asc : List Text) (ws : List (AccessorCode × α)) : Prop :=
  ∀ w ∈ ws, w.1 ∈ code.accessors ∧ w.1.meaning ∈ asc

/-- Objects of an ancestry are faithful.  In an open arena the allocation makes an object and gives a handle, inside
which are handles for the whole ancestry.  After any writes through setters on such handles a getter reads what its own
setter wrote last, or else the value of the entry for its field, in the layer of its meaning. -/
def Faithful (code : FileCode) (asc : List Text) (c : ConstructorCode) : Prop :=
  ∀ {α : Type} (value : Nat → CellEntry → α) (m : Memory α) (arena : Nat), m.objects.isReleased arena = false →
    ∃ self m', c.allocation.make? value arena m = some (self, m') ∧
      (∀ n ∈ asc, ∃ path inner, self.select path = some inner ∧ inner.Typed code ∧ inner.meaning = n ∧
        inner.storage = self.storage) ∧
      ∀ handle, ForObject code asc self.storage handle → ∀ ws : List (AccessorCode × α), ThroughSetters code asc ws →
        ∃ after, ws.foldlM (AccessorCode.set? handle asc) m' = some after ∧ ∀ x ∈ code.accessors, x.meaning ∈ asc →
          after.run? (handle x.meaning) none (x.getter asc) = some (some (((ws.filter fun w => w.1 = x).getLast?.map
            Prod.snd).getD (value (asc.idxOf x.meaning) (.ofField x.field))), after)

/-- No two accessors for objects of an ancestry have one place. -/
theorem Chain.accessor_inj (h : a.Chain asc ps) (ha : a.Complete) (hnd : asc.Nodup)
    (hcode : a.fileCode settings = .ok code) {x y : AccessorCode} (hx : x ∈ code.accessors) (hxm : x.meaning ∈ asc)
    (hy : y ∈ code.accessors) (hym : y.meaning ∈ asc) (hdepth : x.depth asc = y.depth asc)
    (hname : x.field.name = y.field.name) : x = y := by
  obtain ⟨us, p, vs, hps, f, hf, rfl, hlen, -⟩ := h.exists_accessor ha hnd hcode hx hxm
  obtain ⟨us', q, vs', hps', g, hg, rfl, hlen', -⟩ := h.exists_accessor ha hnd hcode hy hym
  obtain ⟨rfl, hcons⟩ := List.append_inj (hps.symm.trans hps') (hlen.symm.trans (hdepth.trans hlen'))
  obtain ⟨rfl, -⟩ := List.cons.inj hcons
  have hfg : f.name = g.name := hname
  obtain rfl := List.inj_on_of_nodup_map (h.consistent hps).fields_nodup hf hg hfg
  rfl

theorem length_tags {x : AccessorCode} (hmem : x.meaning ∈ asc) :
    (layerTags (asc.take (x.depth asc + 1))).length = x.depth asc := by
  have hlt : x.depth asc < asc.length := List.idxOf_lt_length_of_mem hmem
  rw [length_layerTags, List.length_take]
  omega

theorem Complete.isIdent (ha : a.Complete) (hclean : a.findings = []) (hworded : a.file.Worded) {m : Text}
    (hm : m ∈ a.forest.names) : IsIdent m := by
  obtain ⟨p, hfind⟩ := ha.exists_profile hm
  obtain ⟨hp, rfl⟩ := mem_of_find hfind
  exact (hworded _ (ha.profile_clean hclean hp).1).name

theorem Chain.isIdent (h : a.Chain asc ps) (ha : a.Complete) (hclean : a.findings = []) (hworded : a.file.Worded) :
    (∀ m ∈ asc, IsIdent m) ∧ ∀ p ∈ ps, ∀ f ∈ p.fields, IsIdent f.name := by
  have hdecl : ∀ p ∈ ps, p.decl.Worded ∧ p.fields = p.decl.fields.map Profile.slotOf := by
    intro p hp
    obtain ⟨hmem, hfields, -⟩ := ha.profile_clean hclean (h.mem_profiles hp)
    exact ⟨hworded _ hmem, hfields⟩
  refine ⟨fun m hm => ?_, fun p hp f hf => ?_⟩
  · rw [← h.names_eq] at hm
    obtain ⟨p, hp, rfl⟩ := List.mem_map.1 hm
    exact (hdecl p hp).1.name
  · rw [(hdecl p hp).2] at hf
    obtain ⟨d, hd, rfl⟩ := List.mem_map.1 hf
    exact (hdecl p hp).1.fields d hd

theorem Chain.printsAccess (h : a.Chain asc ps) (ha : a.Complete) (hclean : a.findings = []) (hnd : asc.Nodup)
    (hcode : a.fileCode settings = .ok code) {x : AccessorCode} (hx : x ∈ code.accessors) (hmem : x.meaning ∈ asc) :
    PrintsAccess a.file code asc x := by
  obtain ⟨us, p, vs, hps, f, hf, rfl, -, hcell⟩ := h.exists_accessor ha hnd hcode hx hmem
  have htypes : ∀ method argument, ((⟨p.name, f, pathTo p f.name⟩ : AccessorCode).steps asc ++
      [Step.call method argument]).filterMap Step.type? = layerTags (asc.take (asc.idxOf p.name + 1)) := by
    intro method argument
    rw [List.filterMap_append, AccessorCode.steps, Memory.type?_toCell]
    exact List.append_nil _
  refine ⟨AccessorCode.lines_infix hx, AccessorCode.lines_eq hcell, fun hworded => ?_, ?_, ?_⟩
  · obtain ⟨hnames, hfields⟩ := h.isIdent ha hclean hworded
    have hfield := hfields p (by simp [hps]) f hf
    exact ⟨AccessorCode.read?_getter hnames hfield, AccessorCode.read?_setter hnames hfield⟩
  · exact (congrArg List.length (htypes _ _)).trans (length_tags hmem)
  · exact (htypes _ _).trans (htypes _ _).symm

/-- A handle of a meaning of the ancestry leads its accessors to their cells. -/
theorem Chain.leads (h : a.Chain asc ps) (ha : a.Complete) (hclean : a.findings = []) (hnd : asc.Nodup)
    (hcode : a.fileCode settings = .ok code) {x : AccessorCode} (hx : x ∈ code.accessors) (hmem : x.meaning ∈ asc)
    {handle : HandleValue (Option ObjectHandle)} (ht : handle.Typed code) (hmeaning : handle.meaning = x.meaning) :
    x.Leads asc handle handle.storage := by
  obtain ⟨us, p, vs, hps, f, hf, rfl, hdepth, -⟩ := h.exists_accessor ha hnd hcode hx hmem
  have hp : p ∈ ps := by simp [hps]
  obtain ⟨-, -, hself, -⟩ := ha.exists_root (h.mem_profiles hp)
  have hmeaning : handle.meaning = p.name := hmeaning
  have hembedded : p.ascending = handle.embedded.reverse ++ [p.name] :=
    hself.unique (hmeaning ▸ ha.lineage_typed hcode ht)
  have habove : asc.take us.length = us.map (·.name) := by rw [← h.names_eq, hps]; simp
  have hselectors : (asc.take us.length).reverse = handle.embedded := by
    rw [h.ascending_eq hps, List.map_append] at hembedded
    rw [habove, (List.append_inj' hembedded rfl).1, List.reverse_reverse]
  refine ⟨⟨handle.top, ?_⟩, ?_, length_tags hmem, h.field_ne_reserved ha hclean hp hf (by simp)⟩
  · rw [hdepth, hselectors]
    exact handle.select_embedded
  · have hprefix := layerTags_prefix (asc.take (asc.idxOf p.name + 1)) (asc.drop (asc.idxOf p.name + 1))
    rwa [List.take_append_drop] at hprefix

/-- The allocation of a factory makes an object of the ancestry, with the values of the entries at the places of its
fields. -/
theorem Chain.exists_object {root : Profile} {below : List Profile} (h : a.Chain asc (root :: below)) (ha : a.Complete)
    (hclean : a.findings = []) {d : Text} (hasc : Lineage a.forest.parent? d asc) (hd : d ∈ a.forest.names)
    (hcode : a.fileCode settings = .ok code) {c : ConstructorCode} (hroot : c.root = root.name)
    (hbelow : c.below = below.map (·.name))
    (hliteral : c.literal = .ofChain root.name root.fields (below.map fun q => (q.name, q.fields))) {α : Type}
    (value : Nat → CellEntry → α) (m : Memory α) {arena : Nat} (hopen : m.objects.isReleased arena = false) :
    ∃ self o m', c.allocation.make? value arena m = some (self, m') ∧ (self.Typed code ∧ self.meaning = d) ∧
      (∀ n ∈ asc, ∃ path inner, self.select path = some inner ∧ inner.Typed code ∧ inner.meaning = n ∧
        inner.storage = self.storage) ∧
      m'.Holds self.storage o c.literal.places ∧ o.tags = layerTags asc ∧ o.ends = terminalName d ∧
      ∀ s ∈ c.literal.places, m'.contentAt o s = some (value s.1 (.ofField s.2)) := by
  have hnames : c.root :: c.below = asc := by rw [hroot, hbelow]; exact h.names_eq
  have hnamed : c.literal.Named := hliteral ▸ LayerLiteral.named_ofChain fun q hq => h.named ha hclean hq
  obtain ⟨r, o, m', hmake, htags, hends, hholds, hcontent⟩ := ConstructorCode.exists_make? hnamed value m hopen
  rw [hliteral, LayerLiteral.tags_ofChain, h.names_eq] at htags
  have hlast : ((root :: below).map (·.name)).getLast? = some d := h.names_eq ▸ hasc.getLast?_eq
  rw [hliteral, LayerLiteral.ends_ofChain hlast] at hends
  obtain ⟨ht, hmeaning, hstorage⟩ := ha.typed_new hcode (some r) (c := c) hd (hnames ▸ hasc)
  have hholds : m'.Holds (c.newHandle (some r)).storage o c.literal.places := by rwa [hstorage]
  refine ⟨_, o, m', hmake, ⟨ht, hmeaning⟩, fun n hn => ?_, hholds, htags, hends, hcontent⟩
  obtain ⟨path, hpath⟩ := exists_handlePath hasc hn
  obtain ⟨inner, hselect, hinner⟩ := ha.select_eq hcode ht hmeaning hasc hn hpath
  exact ⟨path, inner, hselect, hinner⟩

/-- Setters run on such an object, and keep what it is an object of. -/
theorem Chain.exists_run {root : Profile} {below : List Profile} (h : a.Chain asc (root :: below)) (ha : a.Complete)
    (hclean : a.findings = []) (hnd : asc.Nodup) (hcode : a.fileCode settings = .ok code) {l : LayerLiteral}
    (hliteral : l = .ofChain root.name root.fields (below.map fun q => (q.name, q.fields))) {α : Type} {m : Memory α}
    {r : Option ObjectHandle} {o : Layers (FieldCell α)} (hm : m.Holds r o l.places) (htags : o.tags = layerTags asc)
    {handle : Text → HandleValue (Option ObjectHandle)} (hhandle : ForObject code asc r handle)
    {ws : List (AccessorCode × α)} (hws : ThroughSetters code asc ws) : ∃ m' o',
      ws.foldlM (AccessorCode.set? handle asc) m = some m' ∧ m'.Holds r o' l.places ∧ o'.tags = layerTags asc ∧
      o'.ends = o.ends ∧ ∀ x ∈ code.accessors, x.meaning ∈ asc → x.Leads asc (handle x.meaning) r ∧
        (x.depth asc, x.field) ∈ l.places ∧ m'.contentAt o' (x.depth asc, x.field) =
          ((ws.filter fun w => w.1 = x).getLast?.map Prod.snd).or (m.contentAt o (x.depth asc, x.field)) := by
  let xs := code.accessors.filter (·.meaning ∈ asc)
  have hxs : ∀ x, x ∈ xs ↔ x ∈ code.accessors ∧ x.meaning ∈ asc := by simp [xs]
  have hleads : ∀ x ∈ xs, x.Leads asc (handle x.meaning) r := by
    intro x hx
    obtain ⟨hx, hmem⟩ := (hxs x).1 hx
    obtain ⟨ht, hmeaning, hstorage⟩ := hhandle _ hmem
    exact hstorage ▸ h.leads ha hclean hnd hcode hx hmem ht hmeaning
  have hplaces : ∀ x ∈ xs, (x.depth asc, x.field) ∈ l.places := by
    intro x hx
    obtain ⟨hx, hmem⟩ := (hxs x).1 hx
    obtain ⟨us, p, vs, hps, f, hf, rfl, hdepth, -⟩ := h.exists_accessor ha hnd hcode hx hmem
    rw [hdepth, hliteral]
    exact LayerLiteral.mem_places_ofChain hps hf
  have hdistinct : ∀ x ∈ xs, ∀ y ∈ xs, x.depth asc = y.depth asc → x.field.name = y.field.name → x = y := by
    intro x hx y hy
    obtain ⟨hx, hxm⟩ := (hxs x).1 hx
    obtain ⟨hy, hym⟩ := (hxs y).1 hy
    exact h.accessor_inj ha hnd hcode hx hxm hy hym
  have hws' : ∀ w ∈ ws, w.1 ∈ xs := fun w hw => (hxs w.1).2 (hws w hw)
  obtain ⟨m', o', hrun, hm', htags', hends, hlast⟩ :=
    AccessorCode.exists_run hleads hplaces hdistinct hm htags hws'
  refine ⟨m', o', hrun, hm', htags', hends, fun x hx hmem => ?_⟩
  have hin := (hxs x).2 ⟨hx, hmem⟩
  exact ⟨hleads x hin, hplaces x hin, hlast x hin⟩

theorem Chain.worded_allocation {root : Profile} {below : List Profile} (h : a.Chain asc (root :: below))
    (ha : a.Complete)
    (hclean : a.findings = []) (hworded : a.file.Worded) {c : ConstructorCode} (hroot : c.root = root.name)
    (hbelow : c.below = below.map (·.name))
    (hliteral : c.literal = .ofChain root.name root.fields (below.map fun q => (q.name, q.fields))) :
    c.allocation.Worded := by
  obtain ⟨hnames, hfields⟩ := h.isIdent ha hclean hworded
  have hprofiles : ∀ q ∈ root :: below, IsIdent q.name := fun q hq =>
    hnames _ (h.names_eq ▸ List.mem_map_of_mem hq)
  refine ConstructorCode.worded_allocation ?_ ?_ ?_
  · rw [hroot]
    exact hprofiles root (List.mem_cons_self ..)
  · rw [hbelow]
    intro m hm
    obtain ⟨q, hq, rfl⟩ := List.mem_map.1 hm
    exact hprofiles q (List.mem_cons_of_mem _ hq)
  · rw [hliteral]
    exact LayerLiteral.worded_ofChain hprofiles hfields

theorem Chain.printsAllocation {root : Profile} {below : List Profile} (h : a.Chain asc (root :: below))
    (ha : a.Complete)
    (hclean : a.findings = []) {part : MeaningCode} (hpart : part ∈ code.meanings)
    (hroot : part.constructors.root = root.name) (hbelow : part.constructors.below = below.map (·.name))
    (hliteral : part.constructors.literal =
      .ofChain root.name root.fields (below.map fun q => (q.name, q.fields))) :
    PrintsAllocation a.file code part.constructors :=
  ⟨ConstructorCode.newLines_infix hpart, ConstructorCode.allocation_infix _,
    fun hworded => Allocation.read?_lines (h.worded_allocation ha hclean hworded hroot hbelow hliteral)⟩

theorem Chain.faithful {root : Profile} {below : List Profile} (h : a.Chain asc (root :: below)) (ha : a.Complete)
    (hclean : a.findings = []) {d : Text} (hasc : Lineage a.forest.parent? d asc) (hd : d ∈ a.forest.names)
    (hcode : a.fileCode settings = .ok code) {c : ConstructorCode} (hroot : c.root = root.name)
    (hbelow : c.below = below.map (·.name))
    (hliteral : c.literal = .ofChain root.name root.fields (below.map fun q => (q.name, q.fields))) :
    Faithful code asc c := by
  intro α value m arena hopen
  obtain ⟨self, o, m', hmake, -, hinner, hholds, htags, -, hcontent⟩ :=
    h.exists_object ha hclean hasc hd hcode hroot hbelow hliteral value m hopen
  refine ⟨self, m', hmake, hinner, fun handle hhandle ws hws => ?_⟩
  obtain ⟨after, o', hrun, hafter, htags', -, hlast⟩ :=
    h.exists_run ha hclean hasc.nodup hcode hliteral hholds htags hhandle hws
  refine ⟨after, hrun, fun x hx hmem => ?_⟩
  obtain ⟨hleads, hplace, hlast⟩ := hlast x hx hmem
  obtain ⟨v, hv, hget⟩ := hleads.run?_getter hafter htags' hplace
  rw [hlast, hcontent _ hplace] at hv
  rw [hget]
  cases hw : (ws.filter fun w => w.1 = x).getLast? with
  | none =>
    rw [hw] at hv
    obtain rfl := Option.some.inj hv
    rfl
  | some w =>
    rw [hw] at hv
    obtain rfl := Option.some.inj hv
    rfl

/-- The layered representation.  For every meaning the accessors of its ancestors and its own are all there, and the
object that its factory allocates is faithful for them; no two of these accessors concern one cell. -/
theorem exists_faithful {file : DeclFile} (h : ofFile settings file = .ok a) (hclean : a.findings = []) :
    ∃ code, a.fileCode settings = .ok code ∧ ∀ d ∈ file.meanings, ∃ asc, a.forest.ascending d.name = .ok asc ∧
      (∀ m ∈ file.meanings, m.name ∈ asc → ∀ f ∈ m.fields, ∃ x ∈ code.accessors, x.field = Profile.slotOf f ∧
        ∀ y ∈ code.accessors, y.meaning = m.name ∧ y.field.name = f.name ↔ y = x) ∧
      (∀ x ∈ code.accessors, x.meaning ∈ asc → PrintsAccess file code asc x) ∧
      (∀ x ∈ code.accessors, x.meaning ∈ asc → ∀ y ∈ code.accessors, y.meaning ∈ asc →
        asc.idxOf x.meaning = asc.idxOf y.meaning → x.field.name = y.field.name → x = y) ∧
      ∃ part ∈ code.meanings, (∀ c ∈ code.meanings, c.constructors.profile.name = d.name ↔ c = part) ∧
        PrintsAllocation file code part.constructors ∧ Faithful code asc part.constructors := by
  obtain ⟨ha, rfl⟩ := complete_of_ofFile h
  obtain ⟨code, hcode⟩ := ha.exists_fileCode settings
  refine ⟨code, hcode, fun d hd => ?_⟩
  obtain ⟨p, hp, rfl, hasc, root, below, methods, hchain, hpart⟩ := ha.exists_codeOf hclean hcode hd
  refine ⟨p.ascending, ha.sound.ascending_eq hasc, ?_, fun x hx hmem => ?_, fun x hx hxm y hy hym => ?_, _, hpart,
    ?_, ?_, ?_⟩
  · intro m hm hmem f hf
    rw [← hchain.names_eq] at hmem
    obtain ⟨q, hq, hqname⟩ := List.mem_map.1 hmem
    have hq' := hchain.mem_profiles hq
    obtain ⟨hdecl, hfields, -⟩ := ha.profile_clean hclean hq'
    obtain rfl := ha.decl_unique hclean hdecl hm hqname
    have hslot : Profile.slotOf f ∈ q.fields := hfields ▸ List.mem_map_of_mem hf
    refine ⟨_, (ha.mem_accessors hcode).2 ⟨q, hq', _, hslot, rfl⟩, rfl, fun y hy => ?_⟩
    constructor
    · rintro ⟨hmeaning, hfield⟩
      obtain ⟨q', hq'', g, hg, rfl⟩ := (ha.mem_accessors hcode).1 hy
      obtain rfl := ha.profile_unique hq'' hq' hmeaning
      obtain ⟨us, vs, hsplit⟩ := List.append_of_mem hq
      obtain rfl := List.inj_on_of_nodup_map (hchain.consistent hsplit).fields_nodup hg hslot hfield
      rfl
    · rintro rfl
      exact ⟨rfl, rfl⟩
  · exact hchain.printsAccess ha hclean hasc.nodup hcode hx hmem
  · exact hchain.accessor_inj ha hasc.nodup hcode hx hxm hy hym
  · intro c hc
    rw [← ha.part_iff hcode hpart c hc]
    obtain ⟨q, -, _, _, _, -, rfl⟩ := ha.exists_part hcode hc
    exact Iff.rfl
  · exact hchain.printsAllocation ha hclean hpart rfl rfl rfl
  · exact hchain.faithful ha hclean hasc (ha.name_mem hp) hcode rfl rfl rfl

/-- A meaning whose field has the name of a field of its parent. -/
def counters : DeclFile :=
  let meaning (name parent : Text) (default : Text) : MeaningDecl :=
    { position := ⟨1, 1⟩, name, parent, parentPosition := ⟨1, 1⟩, doc := [], constructors := [], methods := []
      fields := [{ position := ⟨1, 1⟩, name := "count", isRef := false, type := "int", default }] }
  { name := "counters.mt", meanings := [meaning "Counter" [] "1", meaning "Stepper" "Counter" "2"] }

theorem faithful_counters : ∃ a code asc part, @ofFile .english {} counters = .ok a ∧ a.findings = [] ∧
    a.fileCode {} = .ok code ∧ a.forest.ascending "Stepper" = .ok asc ∧
    (∀ x ∈ code.accessors, x.meaning ∈ asc → PrintsAccess counters code asc x) ∧ counters.Worded ∧
    part ∈ code.meanings ∧ PrintsAllocation counters code part.constructors ∧
    Faithful code asc part.constructors := by
  obtain ⟨a, ha, hclean⟩ := exists_clean (by decide +kernel : @cleanInOrder .english {} counters)
  obtain ⟨code, hcode, hfaithful⟩ := exists_faithful ha hclean
  obtain ⟨d, hd, hname⟩ : ∃ d ∈ counters.meanings, d.name = "Stepper" := by decide +kernel
  obtain ⟨asc, hasc, -, haccess, -, part, hpart, -, hallocation, h⟩ := hfaithful d hd
  rw [hname] at hasc
  exact ⟨a, code, asc, part, ha, hclean, hcode, hasc, haccess, by decide +kernel, hpart, hallocation, h⟩

end Analysis

end MeaningForest

import MeaningForest.Proofs.Queries
import MeaningForest.Proofs.Representation

/-!
# Run-time kinds

The meaning that an object was made for shows in the tags of its layers.  The downcasts look at them, and the search for
the last layer follows them.

* `Layers.OfKind.exists_below`: in the object of an ancestry the tag of a layer is that for the next meaning;
* `Complete.resolves_iff`: the names in a downcast stand for what they have to, exactly if no variable of the downcast,
  no declaration of the file and no import hides one of them;
* `Complete.run?_downcast`: such a downcast answers yes exactly if the submeaning is on the ancestry of the object;
* `Complete.search?_eq`: the search ends with the information on the object's meaning.
-/

namespace MeaningForest

open Code Text

variable {lang : Language}

/-! ### Kinds of objects -/

namespace Layers

variable {β : Type}

/-- The tag of a layer of `m` in an object whose ancestry goes on with `below`. -/
def tagFor (m : Text) : List Text → Text
  | [] => terminalName m
  | n :: _ => toLayerName m n

/-- An object of an ancestry: its tags lead from meaning to meaning. -/
structure OfKind (o : Layers β) (asc : List Text) : Prop where
  tags : o.tags = layerTags asc
  ends : asc.getLast?.map terminalName = some o.ends

theorem OfKind.tag_eq {o : Layers β} {m : Text} {below : List Text} (h : o.OfKind (m :: below)) :
    o.tag = tagFor m below := by
  cases below with
  | nil =>
    cases o with
    | last cells tag => exact (Option.some.inj h.ends).symm
    | next cells tag rest => cases h.tags
  | cons n below =>
    cases o with
    | last cells tag => cases h.tags
    | next cells tag rest => exact (List.cons.inj h.tags).1

theorem OfKind.exists_rest {o : Layers β} {m n : Text} {below : List Text} (h : o.OfKind (m :: n :: below)) :
    ∃ cells rest, o = next cells (toLayerName m n) rest ∧ rest.OfKind (n :: below) := by
  cases o with
  | last cells tag => cases h.tags
  | next cells tag rest =>
    obtain ⟨rfl, htags⟩ := List.cons.inj h.tags
    refine ⟨cells, rest, rfl, htags, ?_⟩
    rw [← List.getLast?_cons_cons (a := m)]
    exact h.ends

/-- Below the layers of the first meanings is an object of the others. -/
theorem OfKind.exists_below {o : Layers β} {us vs : List Text} {m : Text} (h : o.OfKind (us ++ m :: vs)) :
    ∃ o', o.below? us.length = some o' ∧ o'.tag = tagFor m vs := by
  induction us generalizing o with
  | nil => exact ⟨o, by cases o <;> rfl, h.tag_eq⟩
  | cons u us ih =>
    obtain ⟨n, below, hbelow⟩ : ∃ n below, us ++ m :: vs = n :: below := List.exists_cons_of_ne_nil (by simp)
    rw [List.cons_append, hbelow] at h
    obtain ⟨cells, rest, rfl, hrest⟩ := h.exists_rest
    rw [← hbelow] at hrest
    exact ih hrest

end Layers

/-! ### Names in a method -/

/-- What a name stands for in a function: a variable of the function, a declaration of the file, what an import of the
file brings, or what every file knows. -/
inductive Origin where
  | variable
  | declared
  | imported
  | predeclared
  deriving DecidableEq, Repr

namespace Code

/-- What a name stands for, given the names that imports bring and the variables around it; an import never brings the
name of a declaration of the file. -/
def FileCode.origin (code : FileCode) (imported locals : List Text) (name : Text) : Origin :=
  if locals.contains name then .variable
  else if code.packageNames.contains name then .declared
  else if imported.contains name then .imported
  else .predeclared

section

variable {code : FileCode} {imported locals : List Text} {name : Text}

theorem FileCode.origin_eq_variable : code.origin imported locals name = .variable ↔ name ∈ locals := by
  rw [origin]
  simp only [List.contains_iff_mem]
  split
  · simp [*]
  · split
    · simp [*]
    · split <;> simp [*]

theorem FileCode.origin_eq_declared :
    code.origin imported locals name = .declared ↔ name ∉ locals ∧ name ∈ code.packageNames := by
  rw [origin]
  simp only [List.contains_iff_mem]
  split
  · simp [*]
  · split
    · simp [*]
    · split <;> simp [*]

theorem FileCode.origin_eq_imported : code.origin imported locals name = .imported ↔
    name ∉ locals ∧ name ∉ code.packageNames ∧ name ∈ imported := by
  rw [origin]
  simp only [List.contains_iff_mem]
  split
  · simp [*]
  · split
    · simp [*]
    · split <;> simp [*]

theorem FileCode.origin_eq_predeclared :
    code.origin imported locals name = .predeclared ↔ name ∉ locals ∧ name ∉ code.packageNames ∧ name ∉ imported := by
  rw [origin]
  simp only [List.contains_iff_mem]
  split
  · simp [*]
  · split
    · simp [*]
    · split <;> simp [*]

end

/-! ### Downcasts -/

def FileCode.downcasts (code : FileCode) : List DowncastCode := code.meanings.flatMap (·.downcasts)

/-- A handle of the same type without an object. -/
def HandleValue.cleared {ρ : Type} : HandleValue (Option ρ) → HandleValue (Option ρ)
  | root m _ => root m none
  | sub m h => sub m h.cleared

namespace DowncastFunction

/-- The names in a downcast, each with the variables around it, and what it has to stand for. -/
def uses (f : DowncastFunction) : List (List Text × Text × Origin) :=
  [([], f.meaning, .declared), ([], f.result, .declared), ([], f.flagType, .predeclared),
    ([f.receiver], f.tested.var, .variable)] ++
  (f.tested.steps.filterMap Step.type?).map (([f.receiver], ·, .declared)) ++
  [([f.flag, f.receiver], f.condition, .variable), ([f.flag, f.receiver], f.found.type, .declared),
    ([f.flag, f.receiver], f.found.argument, .variable), ([f.flag, f.receiver], f.found.flag, .predeclared),
    ([f.receiver], f.missing.type, .declared), ([f.receiver], f.missing.flag, .predeclared)]

def Resolves (f : DowncastFunction) (code : FileCode) (imported : List Text) : Prop :=
  ∀ u ∈ f.uses, code.origin imported u.1 u.2.1 = u.2.2

instance (f : DowncastFunction) (code : FileCode) (imported : List Text) : Decidable (f.Resolves code imported) :=
  inferInstanceAs (Decidable (∀ u ∈ f.uses, _))

/-- A downcast tests its receiver and returns it in a handle of the result type, or an empty one, each with its flag. -/
def Formed (f : DowncastFunction) : Prop :=
  f.flagType = "bool" ∧ f.tested.var = f.receiver ∧ f.condition = f.flag ∧ f.flag ≠ f.receiver ∧
    f.found = ⟨f.result, f.receiver, "true"⟩ ∧ f.missing = ⟨f.result, [], "false"⟩

instance (f : DowncastFunction) : Decidable f.Formed := inferInstanceAs (Decidable (_ ∧ _))

/-- The two results of a downcast of a handle.  There are none if a name stands for something else, if the receiver has
another type, if no handle of the result embeds one of its type, or if an assertion before the tested one fails. -/
def run? {α : Type} (f : DowncastFunction) (code : FileCode) (imported : List Text) (m : Memory α)
    (h : HandleValue (Option ObjectHandle)) : Option (HandleValue (Option ObjectHandle) × Bool) :=
  if f.Formed ∧ f.Resolves code imported ∧ h.meaning = f.meaning ∧
      ∃ part ∈ code.meanings, part.handle.meaning = f.result ∧ part.handle.parent = some h.meaning then
    match f.tested.steps.getLast?, m.denotes? (.handle h) f.tested.steps.dropLast with
    | some (.assert type), some (.variant _ _ o) =>
      some (if o.tag = type then (.sub f.result h, true) else (.sub f.result h.cleared, false))
    | _, _ => none
  else none

end DowncastFunction

/-! ### Search -/

/-- The methods for the search in the layers of a file, and the types of its tags. -/
def FileCode.searches (code : FileCode) : List SearchFunction := code.meanings.map (·.layer.searchFunction)
def FileCode.tagStructs (code : FileCode) : List TagStruct :=
  code.meanings.flatMap fun part => part.layer.submeanings.map part.layer.tagStruct

/-- The tags and the information variable in a search are those of the file. -/
def SearchFunction.Resolves (f : SearchFunction) (code : FileCode) : Prop :=
  (∀ s ∈ f.switch, s.subject = f.receiver ∧ s.field = "variant" ∧
    ∀ c ∈ s.cases, code.origin [] [f.receiver] c.tag = .declared) ∧
  code.origin [] [f.receiver] f.information = .declared

instance (f : SearchFunction) (code : FileCode) : Decidable (f.Resolves code) :=
  inferInstanceAs (Decidable (_ ∧ _))

/-- What a method of a layer type does with a layer of some tag: it returns an information variable, or it goes on with
a layer of another type. -/
def FileCode.searchStep? (code : FileCode) (method type tag : Text) : Option (Text ⊕ Text) :=
  (code.searches.find? fun f => f.layer = type ∧ f.method = method).bind fun f =>
    if f.Resolves code then
      match f.switch.bind fun s => (s.cases.find? (·.tag = tag)).map fun c => (s.bound, c.body) with
      | none => some (.inl f.information)
      | some (bound, body) => (code.tagStructs.find? (·.name = tag)).bind fun t =>
          if body = ⟨bound, [.select t.field, .call method []]⟩ then some (.inr t.layer) else none
    else none

/-- The information variable that a method of a layer type gives for the layers of an object. -/
def FileCode.search? {β : Type} (code : FileCode) (method : Text) : Layers β → Text → Option Text
  | .last _ tag, type => (code.searchStep? method type tag).bind (·.getLeft?)
  | .next _ tag rest, type => (code.searchStep? method type tag).bind (·.elim some (code.search? method rest))

/-- The information variable that the method of a root handle gives; the root layer has the layer type of its meaning.
-/
def FileCode.info? {α : Type} (code : FileCode) (m : Memory α) (x : Access) (h : HandleValue (Option ObjectHandle)) :
    Option Text :=
  match x.steps.getLast?, m.denotes? (.handle h) x.steps.dropLast with
  | some (.call method []), some (.layer _ 0 o) =>
    if x.var = receiverName then code.search? method o (layerName h.meaning) else none
  | _, _ => none

/-- Nothing hides a name that the downcast to a submeaning needs: the submeaning is not called like a variable of the
downcast, and the file has no declaration or import that is called like what every file knows. -/
def FileCode.Unhidden (code : FileCode) (imported : List Text) (sub : Text) : Prop :=
  sub ∉ [Text.ofString "ok", receiverName] ∧
    ∀ name ∈ ["bool", "true", "false"].map Text.ofString, name ∉ code.packageNames ∧ name ∉ imported

instance (code : FileCode) (imported : List Text) (sub : Text) : Decidable (code.Unhidden imported sub) :=
  inferInstanceAs (Decidable (_ ∧ _))

theorem toLayerName_notMem_receiver (m s : Text) :
    toLayerName m s ∉ [receiverName] ∧ toLayerName m s ∉ [Text.ofString "l"] := by
  simp [toLayerName, layerName, receiverName, Text.ofString, String.utf8EncodeChar]

theorem infoName_notMem_receiver (m : Text) : infoName m ∉ [Text.ofString "l"] := by
  simp [infoName, Text.ofString, String.utf8EncodeChar]

end Code

namespace Analysis

variable {a : Analysis} {settings : Settings} {code : FileCode}

/-! ### Names -/

theorem terminalName_ne_toLayerName (m s : Text) : terminalName m ≠ toLayerName m s := by
  simp [terminalName, toLayerName, Text.ofString, String.utf8EncodeChar]

theorem Complete.toLayerName_inj (ha : a.Complete) (hclean : a.findings = []) {m s t : Text}
    (hs : a.forest.parent? s = some m) (ht : a.forest.parent? t = some m) (heq : toLayerName m s = toLayerName m t) :
    s = t :=
  (ha.unambiguous hclean).word_inj (Forest.mem_names_of_parent? hs) (Forest.mem_names_of_parent? ht) heq

theorem Complete.toLayerName_mem (ha : a.Complete) (hcode : a.fileCode settings = .ok code) {m s : Text}
    (hs : a.forest.parent? s = some m) : toLayerName m s ∈ code.packageNames := by
  have hmem := List.mem_map_of_mem (f := toLayerName m) (ha.sound.mem_submeanings.2 hs)
  exact ha.mem_packageNames hcode (ha.sound.closed _ _ hs) (List.mem_cons_of_mem _ (List.mem_append_right _ hmem))

/-- The names in a downcast stand for what they have to exactly if nothing hides them. -/
theorem Complete.resolves_iff (ha : a.Complete) (hcode : a.fileCode settings = .ok code) {p : Profile}
    (hp : p ∈ a.profiles) {s : Text} (hs : a.forest.parent? s = some p.name) (imported : List Text) :
    ((⟨p.name, s, pathTo p "variant"⟩ : DowncastCode).function p.ascending).Resolves code imported ↔
      code.Unhidden imported s := by
  obtain ⟨-, -, hasc, -⟩ := ha.exists_root hp
  have hself := ha.mem_packageNames hcode (ha.name_mem hp) (List.mem_cons_self ..)
  have hsub := ha.mem_packageNames hcode (Forest.mem_names_of_parent? hs) (List.mem_cons_self ..)
  have htypes : ((⟨p.name, s, pathTo p "variant"⟩ : DowncastCode).function p.ascending).tested.steps.filterMap
      Step.type? = layerTags p.ascending ++ [toLayerName p.name s] := by
    show (Step.toCell _ _ _ ++ [Step.assert _]).filterMap Step.type? = _
    rw [List.filterMap_append, Memory.type?_toCell]
    rfl
  have htags : ∀ tag ∈ layerTags p.ascending, tag ∉ [receiverName] ∧ tag ∈ code.packageNames := by
    intro tag htag
    obtain ⟨m, n, -, rfl⟩ := exists_of_mem_layerTags htag
    exact ⟨(toLayerName_notMem_receiver m n).1, ha.layerTags_subset hcode hasc (ha.name_mem hp) htag⟩
  have hwords : Text.ofString "true" ∉ [Text.ofString "ok", receiverName] ∧
      Text.ofString "false" ∉ [receiverName] := by decide
  rw [DowncastFunction.Resolves, DowncastFunction.uses, htypes]
  simp only [DowncastCode.function, List.forall_mem_append, List.forall_mem_cons, List.forall_mem_map,
    FileCode.origin_eq_declared, FileCode.origin_eq_predeclared, FileCode.origin_eq_variable, FileCode.Unhidden]
  constructor
  · rintro ⟨⟨⟨-, -, hbool, -⟩, -⟩, -, hsub', -, htrue, -, hfalse, -⟩
    exact ⟨hsub'.1, hbool.2, htrue.2, hfalse.2, List.forall_mem_nil _⟩
  · rintro ⟨hsub', hbool, htrue, hfalse, -⟩
    have hfound : s ∉ [receiverName] := fun hmem => hsub' (List.mem_cons_of_mem _ hmem)
    exact ⟨⟨⟨⟨List.not_mem_nil, hself⟩, ⟨List.not_mem_nil, hsub⟩, ⟨List.not_mem_nil, hbool⟩, by simp,
      List.forall_mem_nil _⟩, htags, ⟨(toLayerName_notMem_receiver _ _).1, ha.toLayerName_mem hcode hs⟩,
      List.forall_mem_nil _⟩, by simp, ⟨hsub', hsub⟩, by simp, ⟨hwords.1, htrue⟩, ⟨hfound, hsub⟩,
      ⟨hwords.2, hfalse⟩, List.forall_mem_nil _⟩

/-! ### Downcasts -/

theorem Complete.mem_downcasts (ha : a.Complete) (hcode : a.fileCode settings = .ok code) {x : DowncastCode} :
    x ∈ code.downcasts ↔ ∃ p ∈ a.profiles, ∃ s, a.forest.parent? s = some p.name ∧
      x = ⟨p.name, s, pathTo p "variant"⟩ := by
  rw [FileCode.downcasts, List.mem_flatMap]
  constructor
  · rintro ⟨part, hpart, hx⟩
    obtain ⟨p, hp, root, below, methods, -, rfl⟩ := ha.exists_part hcode hpart
    obtain ⟨s, hs, rfl⟩ := List.mem_map.1 hx
    rw [ha.submeanings_eq hp] at hs
    exact ⟨p, hp, s, ha.sound.mem_submeanings.1 hs, rfl⟩
  · rintro ⟨p, hp, s, hs, rfl⟩
    obtain ⟨root, below, methods, -, -, hpc⟩ := ha.exists_meaningCode hp
    refine ⟨_, (ha.mem_meanings hcode).2 ⟨p, hp, hpc⟩, List.mem_map.2 ⟨s, ?_, rfl⟩⟩
    rw [ha.submeanings_eq hp]
    exact ha.sound.mem_submeanings.2 hs

/-- A tag of a layer names the submeaning that comes next on the ancestry. -/
theorem Complete.tagFor_eq_iff (ha : a.Complete) (hclean : a.findings = []) {d m s : Text} {us vs : List Text}
    (hasc : Lineage a.forest.parent? d (us ++ m :: vs)) (hs : a.forest.parent? s = some m) :
    Layers.tagFor m vs = toLayerName m s ↔ s ∈ us ++ m :: vs := by
  constructor
  · intro htag
    cases vs with
    | nil => exact absurd htag (terminalName_ne_toLayerName m s)
    | cons n vs =>
      have hn : a.forest.parent? n = some m := (List.isChain_append.1 hasc.isChain).2.1.rel
      obtain rfl := ha.toLayerName_inj hclean hn hs htag
      simp
  · intro hmem
    obtain ⟨w, rfl⟩ := hasc.next_of_mem hs hmem
    rfl

/-- A downcast whose names stand for what they have to finds the layer of its meaning in every object below it, and the
tag there decides. -/
theorem Complete.run?_downcast (ha : a.Complete) (hclean : a.findings = []) (hcode : a.fileCode settings = .ok code)
    {p : Profile} (hp : p ∈ a.profiles) {s : Text} (hs : a.forest.parent? s = some p.name) (imported : List Text)
    {α : Type} {m : Memory α} {h : HandleValue (Option ObjectHandle)} (ht : h.Typed code)
    (hmeaning : h.meaning = p.name) {o : Layers (FieldCell α)} (ho : m.objects.get h.storage = .ok o) {d : Text}
    {asc : List Text} (hasc : Lineage a.forest.parent? d asc) (hkind : o.OfKind asc) (hmem : p.name ∈ asc) :
    ((⟨p.name, s, pathTo p "variant"⟩ : DowncastCode).function p.ascending).run? code imported m h =
      if code.Unhidden imported s then some (if s ∈ asc then (.sub s h, true) else (.sub s h.cleared, false))
      else none := by
  obtain ⟨-, -, hself, -⟩ := ha.exists_root hp
  obtain ⟨us, vs, rfl⟩ := List.append_of_mem hmem
  have hup : p.ascending = us ++ [p.name] := hself.unique hasc.of_append_cons
  have hembedded : p.ascending = h.embedded.reverse ++ [p.name] :=
    hself.unique (hmeaning ▸ ha.lineage_typed hcode ht)
  have hselectors : p.ascending.dropLast.reverse = h.embedded := by rw [hembedded]; simp
  have hprefix : layerTags p.ascending <+: o.tags := by
    rw [hkind.tags, hup]
    simpa using layerTags_prefix (us ++ [p.name]) vs
  have hlength : (layerTags p.ascending).length = us.length := by rw [length_layerTags, hup]; simp
  obtain ⟨o', hbelow, htag⟩ := hkind.exists_below
  have htested : m.denotes? (.handle h) (Step.toCell p.ascending.dropLast.reverse (layerTags p.ascending) "variant") =
      some (.variant h.storage us.length o') := by
    rw [hselectors, Memory.denotes?_toTag h.select_embedded ho hprefix, hlength, hbelow, Option.map_some]
  obtain ⟨part, hpart, hpartname, hpartparent⟩ := ha.exists_handle hcode (Forest.mem_names_of_parent? hs)
  have hformed : ((⟨p.name, s, pathTo p "variant"⟩ : DowncastCode).function p.ascending).Formed :=
    ⟨rfl, rfl, rfl, (by decide : Text.ofString "ok" ≠ receiverName), rfl, rfl⟩
  have hembeds : ∃ part ∈ code.meanings, part.handle.meaning = s ∧ part.handle.parent = some h.meaning :=
    ⟨part, hpart, hpartname, by rw [hpartparent, hs, hmeaning]⟩
  have hiff := ha.tagFor_eq_iff hclean hasc hs
  by_cases hunhidden : code.Unhidden imported s
  · have hresolves := (ha.resolves_iff hcode hp hs imported).2 hunhidden
    rw [DowncastFunction.run?, if_pos ⟨hformed, hresolves, hmeaning, hembeds⟩, if_pos hunhidden]
    simp only [DowncastCode.function, List.getLast?_concat, List.dropLast_concat, htested, htag, hiff]
  · have hresolves := mt (ha.resolves_iff hcode hp hs imported).1 hunhidden
    rw [DowncastFunction.run?, if_neg fun h => hresolves h.2.1, if_neg hunhidden]

/-! ### Search -/

/-- The method for the search is found by its layer type, and its names stand for what they have to. -/
theorem Complete.searches_find? (ha : a.Complete) (hclean : a.findings = []) (hcode : a.fileCode settings = .ok code)
    {m : Text} (hm : m ∈ a.forest.names) : ∃ l : LayerCode, l.meaning = m ∧ l.submeanings = a.forest.submeanings m ∧
      (code.searches.find? fun f => f.layer = layerName m ∧ f.method = Text.ofString "runtimeInfo") =
        some l.searchFunction ∧ l.searchFunction.Resolves code := by
  obtain ⟨p, hfind⟩ := ha.exists_profile hm
  obtain ⟨hp, rfl⟩ := mem_of_find hfind
  obtain ⟨root, below, methods, -, -, hpc⟩ := ha.exists_meaningCode hp
  have hpart := (ha.mem_meanings hcode).2 ⟨p, hp, hpc⟩
  refine ⟨⟨p.name, p.fields, p.submeanings⟩, rfl, ha.submeanings_eq hp, ?_, ?_, ?_⟩
  · have hkey : ∀ part ∈ code.meanings, layerName part.layer.meaning = "layer" ++ part.handle.meaning.capitalize := by
      intro part hpart
      obtain ⟨q, -, _, _, _, -, rfl⟩ := ha.exists_part hcode hpart
      rfl
    have hfound : code.meanings.find? (layerName ·.layer.meaning = layerName p.name) = _ :=
      ha.find?_part hclean hcode "layer" hkey hpart
    have htest : (fun f : SearchFunction => decide (f.layer = layerName p.name ∧
      f.method = Text.ofString "runtimeInfo")) ∘
        (fun part : MeaningCode => part.layer.searchFunction) =
          fun part => decide (layerName part.layer.meaning = layerName p.name) := by
      funext part
      simp [LayerCode.searchFunction]
    rw [FileCode.searches, List.find?_map, htest, hfound]
    rfl
  · intro s hs
    rw [LayerCode.searchFunction] at hs
    dsimp only at hs
    split at hs
    · cases hs
    · obtain rfl := Option.some.inj hs
      refine ⟨rfl, rfl, fun c hc => ?_⟩
      obtain ⟨t, ht, rfl⟩ := List.mem_map.1 hc
      rw [ha.submeanings_eq hp, ha.sound.mem_submeanings] at ht
      exact FileCode.origin_eq_declared.2 ⟨(toLayerName_notMem_receiver p.name t).2, ha.toLayerName_mem hcode ht⟩
  · refine FileCode.origin_eq_declared.2 ⟨infoName_notMem_receiver p.name, ha.mem_packageNames hcode hm ?_⟩
    have hinfo : infoName p.name ∈ a.forest.topLevel p.name := List.mem_append_left _ (by simp)
    exact List.mem_cons_of_mem _ hinfo

/-- A tag has one type, with a field for the layer of its submeaning. -/
theorem Complete.tagStructs_find? (ha : a.Complete) (hclean : a.findings = []) (hcode : a.fileCode settings = .ok code)
    {m s : Text} (hs : a.forest.parent? s = some m) :
    code.tagStructs.find? (·.name = toLayerName m s) = some ⟨toLayerName m s, "next", layerName s⟩ := by
  have hiff : ∀ t, t ∈ code.tagStructs ↔ ∃ m ∈ a.forest.names, ∃ s, a.forest.parent? s = some m ∧
      t = ⟨toLayerName m s, "next", layerName s⟩ := by
    intro t
    rw [FileCode.tagStructs, List.mem_flatMap]
    constructor
    · rintro ⟨part, hpart, ht⟩
      obtain ⟨p, hp, root, below, methods, -, rfl⟩ := ha.exists_part hcode hpart
      obtain ⟨s, hs, rfl⟩ := List.mem_map.1 ht
      have hs : s ∈ p.submeanings := hs
      rw [ha.submeanings_eq hp, ha.sound.mem_submeanings] at hs
      exact ⟨p.name, ha.name_mem hp, s, hs, rfl⟩
    · rintro ⟨m, hm, s, hs, rfl⟩
      obtain ⟨p, hfind⟩ := ha.exists_profile hm
      obtain ⟨hp, rfl⟩ := mem_of_find hfind
      obtain ⟨root, below, methods, -, -, hpc⟩ := ha.exists_meaningCode hp
      have hsub : s ∈ p.submeanings := by rw [ha.submeanings_eq hp]; exact ha.sound.mem_submeanings.2 hs
      exact ⟨_, (ha.mem_meanings hcode).2 ⟨p, hp, hpc⟩, List.mem_map.2 ⟨s, hsub, rfl⟩⟩
  have hm := ha.sound.closed _ _ hs
  refine find?_key ((hiff _).2 ⟨m, hm, s, hs, rfl⟩) fun t ht heq => ?_
  obtain ⟨n, hn, u, hu, rfl⟩ := (hiff t).1 ht
  have htop : ∀ {m s}, a.forest.parent? s = some m → toLayerName m s ∈ a.forest.topLevel m := fun hs =>
    List.mem_append_right _ (List.mem_map_of_mem (ha.sound.mem_submeanings.2 hs))
  have heq : toLayerName n u = toLayerName m s := heq
  obtain rfl := (ha.unambiguous hclean).owner n hn m hm _ (htop hu) (heq ▸ htop hs)
  obtain rfl := ha.toLayerName_inj hclean hu hs heq
  rfl

/-- In a layer whose tag leads on, the search goes on with the layer of the submeaning. -/
theorem Complete.searchStep?_next (ha : a.Complete) (hclean : a.findings = []) (hcode : a.fileCode settings = .ok code)
    {m s : Text} (hs : a.forest.parent? s = some m) :
    code.searchStep? "runtimeInfo" (layerName m) (toLayerName m s) = some (.inr (layerName s)) := by
  obtain ⟨l, rfl, hsubs, hfind, hresolves⟩ := ha.searches_find? hclean hcode (ha.sound.closed _ _ hs)
  have hmem : s ∈ l.submeanings := by rw [hsubs]; exact ha.sound.mem_submeanings.2 hs
  have hcase : (l.submeanings.map l.searchCase).find? (·.tag = toLayerName l.meaning s) = some (l.searchCase s) := by
    have hkey : ∀ c ∈ l.submeanings.map l.searchCase, c.tag = (l.searchCase s).tag → c = l.searchCase s := by
      intro c hc heq
      obtain ⟨t, ht, rfl⟩ := List.mem_map.1 hc
      rw [hsubs, ha.sound.mem_submeanings] at ht
      rw [ha.toLayerName_inj hclean ht hs heq]
    exact find?_key (List.mem_map_of_mem hmem) hkey
  have hswitch : l.searchFunction.switch = some l.typeSwitch := if_neg (by simp [List.ne_nil_of_mem hmem])
  rw [FileCode.searchStep?, hfind, Option.bind_some, if_pos hresolves, hswitch]
  simp only [Option.bind_some, LayerCode.typeSwitch, hcase, Option.map_some, ha.tagStructs_find? hclean hcode hs,
    LayerCode.searchCase, if_true]

/-- In the last layer it ends with the information on the meaning of the layer. -/
theorem Complete.searchStep?_last (ha : a.Complete) (hclean : a.findings = []) (hcode : a.fileCode settings = .ok code)
    {m : Text} (hm : m ∈ a.forest.names) :
    code.searchStep? "runtimeInfo" (layerName m) (terminalName m) = some (.inl (infoName m)) := by
  obtain ⟨l, rfl, hsubs, hfind, hresolves⟩ := ha.searches_find? hclean hcode hm
  have hcase : (l.submeanings.map l.searchCase).find? (·.tag = terminalName l.meaning) = none := by
    rw [List.find?_eq_none]
    intro c hc
    obtain ⟨s, -, rfl⟩ := List.mem_map.1 hc
    simp [LayerCode.searchCase, (terminalName_ne_toLayerName l.meaning s).symm]
  have hswitch : (l.searchFunction.switch.bind fun s =>
      (s.cases.find? (·.tag = terminalName l.meaning)).map fun c => (s.bound, c.body)) = none := by
    rw [LayerCode.searchFunction]
    dsimp only
    split
    · rfl
    · rw [Option.bind_some, LayerCode.typeSwitch, hcase]
      rfl
  rw [FileCode.searchStep?, hfind, Option.bind_some, if_pos hresolves, hswitch]
  rfl

theorem Complete.search?_eq (ha : a.Complete) (hclean : a.findings = []) (hcode : a.fileCode settings = .ok code)
    {β : Type} {o : Layers β} {d m : Text} {below : List Text} (ho : o.OfKind (m :: below))
    (hm : m ∈ a.forest.names) (hchain : (m :: below).IsChain fun m n => a.forest.parent? n = some m)
    (hlast : (m :: below).getLast? = some d) : code.search? "runtimeInfo" o (layerName m) = some (infoName d) := by
  induction below generalizing o m with
  | nil =>
    obtain rfl := Option.some.inj hlast
    cases o with
    | next cells tag rest => cases ho.tags
    | last cells tag =>
      obtain rfl : terminalName m = tag := Option.some.inj ho.ends
      rw [FileCode.search?, ha.searchStep?_last hclean hcode hm]
      rfl
  | cons n below ih =>
    obtain ⟨hn, hchain⟩ := List.isChain_cons_cons.1 hchain
    obtain ⟨cells, rest, rfl, hrest⟩ := ho.exists_rest
    rw [FileCode.search?, ha.searchStep?_next hclean hcode hn]
    exact ih hrest (Forest.mem_names_of_parent? hn) hchain hlast

end Analysis

end MeaningForest

import MeaningForest.Proofs.Calls
import MeaningForest.Proofs.Hygiene
import MeaningForest.Proofs.Kinds

/-!
# The order of constructors

The factory of a meaning allocates all layers of a new object.  Then it calls the initializer of the parent, which calls
that of its own parent and so on, and the constructor of the meaning.  A name that is called stands for a function of
the file unless a parameter around the call has this name.

* `Complete.exists_inOrder`: if the calls on the way resolve, the constructors run along the ancestry, each on its own
  handle; if not, nothing runs;
* `exists_constructed_iff`: factories and initializers run them so exactly if no parameter hides a name in their bodies;
* `constructed_fails_takenOver`: a parameter can have the name of an initializer.
-/

namespace MeaningForest

open Code Text

variable {lang : Language}

namespace Code

/-! ### Initializers and factories -/

/-- A function that runs others on a handle: the parameter for the handle, the other names that its head declares, and
the calls that are its body. -/
structure Initializer where
  name : Text
  handle : Text
  meaning : Text
  others : List Text
  calls : List Activation
  deriving DecidableEq, Repr

namespace Initializer

/-- No name is declared twice, and each call gives a function of the file a handle out of the parameter. -/
structure Resolves (f : Initializer) (code : FileCode) : Prop where
  distinct : f.handle ∉ f.others
  handles : ∀ x ∈ f.calls, x.var = f.handle
  functions : ∀ x ∈ f.calls, code.origin [] (f.handle :: f.others) x.function = .declared

/-- No other name of the head is one that the body mentions. -/
def Hygienic (f : Initializer) : Prop := ∀ name ∈ f.others, name ∉ f.handle :: f.calls.map (·.function)

instance (f : Initializer) : Decidable f.Hygienic := inferInstanceAs (Decidable (∀ name ∈ f.others, _))

end Initializer

/-- The types and the packages that an allocation mentions. -/
def Allocation.types (x : Allocation) : List Text := x.handles ++ x.layer :: x.literal.types
def Allocation.packages (x : Allocation) : List Text := x.package :: x.literal.packages

/-- A function that makes an object: the parameter for the arena, the other names that its head declares, and its body.
-/
structure Factory where
  name : Text
  arena : Text
  others : List Text
  body : FactoryBody
  deriving DecidableEq, Repr

/-- No name is declared twice, all names stand for what they have to, and the calls and the result are about the new
object. -/
structure Factory.Resolves (f : Factory) (code : FileCode) (imported : List Text) : Prop where
  distinct : f.arena ∉ f.others ∧ f.body.allocation.object ∉ f.arena :: f.others
  arena : f.body.allocation.arena = f.arena
  packages : ∀ package ∈ f.body.allocation.packages, code.origin imported (f.arena :: f.others) package = .imported
  types : ∀ type ∈ f.body.allocation.types, code.origin imported (f.arena :: f.others) type = .declared
  handles : ∀ x ∈ f.body.calls, x.var = f.body.allocation.object
  functions : ∀ x ∈ f.body.calls,
    code.origin imported (f.body.allocation.object :: f.arena :: f.others) x.function = .declared
  result : f.body.result = f.body.allocation.object

namespace ConstructorCode

variable (c : ConstructorCode)

def calls (var : Text) : List Activation := (constructCalls c.profile var).map (·.activation)

/-- What is printed as the initializer and as the factory of a meaning. -/
def initializer : Initializer :=
  ⟨initName c.profile.name, receiverName, c.profile.name, c.parameters, c.calls receiverName⟩

def factory : Factory :=
  ⟨newName c.profile.name, c.arenaVariable, c.parameters, ⟨c.allocation, c.calls c.objectVariable, c.objectVariable⟩⟩

end ConstructorCode

namespace ConstructorCode

variable {c : ConstructorCode}

theorem map_function_calls (c : ConstructorCode) (var var' : Text) :
    (c.calls var).map (·.function) = (c.calls var').map (·.function) := by
  rw [calls, calls, constructCalls, constructCalls]
  cases c.profile.parent? <;> rfl

theorem mem_references_iff {name : Text} : name ∈ c.references ↔ name ∈ c.allocation.types ∨
    name ∈ c.allocation.packages ∨ name = c.arenaVariable ∨ name = c.objectVariable ∨
      name ∈ receiverName :: (c.calls receiverName).map (·.function) := by
  have hcalls : name ∈ (c.calls receiverName).map (·.function) ↔
      name = ctorName c.profile.name ∨ name ∈ c.profile.parent?.toList.map initName := by
    rw [calls, constructCalls]
    cases c.profile.parent? <;> simp [HandleCall.activation, or_comm]
  simp only [references, Allocation.types, Allocation.packages, allocation, List.flatMap_append, List.mem_append,
    mem_constructCalls, LayerLiteral.mem_references, hcalls, List.mem_cons, List.mem_reverse, List.not_mem_nil,
      or_false]
  grind only

/-! ### Local names -/

theorem exists_locals (c : ConstructorCode) : ∃ s t, c.arenaVariable = Text.ofString "arena" ++ s ∧
    c.objectVariable = Text.ofString "cto" ++ t ∧
    c.locals = [runtimeName, receiverName, Text.ofString "arena" ++ s, Text.ofString "cto" ++ t] := by
  have harena : ∃ s, c.arenaVariable = Text.ofString "arena" ++ s := exists_freeName "arena" _
  have hobject : ∃ t, c.objectVariable = Text.ofString "cto" ++ t := exists_freeName "cto" _
  obtain ⟨s, harena⟩ := harena
  obtain ⟨t, hobject⟩ := hobject
  exact ⟨s, t, harena, hobject, by rw [locals, harena, hobject]⟩

theorem nodup_locals (c : ConstructorCode) : c.locals.Nodup := by
  obtain ⟨s, t, -, -, hlocals⟩ := c.exists_locals
  rw [hlocals]
  simp [runtimeName, receiverName, Text.ofString, String.utf8EncodeChar]

theorem layer_notMem_locals (c : ConstructorCode) (t : Text) : Text.ofString "layer" ++ t ∉ c.locals := by
  obtain ⟨s, u, -, -, hlocals⟩ := c.exists_locals
  rw [hlocals]
  simp [runtimeName, receiverName, Text.ofString, String.utf8EncodeChar]

theorem initName_notMem_locals (c : ConstructorCode) (m : Text) : initName m ∉ c.locals := by
  obtain ⟨s, t, -, -, hlocals⟩ := c.exists_locals
  rw [hlocals]
  simp [initName, runtimeName, receiverName, Text.ofString, String.utf8EncodeChar]

theorem ctorName_notMem_locals (c : ConstructorCode) (m : Text) : ctorName m ∉ c.locals := by
  obtain ⟨s, t, -, hobject, hlocals⟩ := c.exists_locals
  have hothers : ctorName m ∉ [runtimeName, receiverName, Text.ofString "arena" ++ s] := by
    simp [ctorName, runtimeName, receiverName, Text.ofString, String.utf8EncodeChar]
  -- with the letter `r` after `cto` it is no candidate
  have hname : ctorName m = Text.ofString "cto" ++ 0x72 :: m.capitalize := by
    simp [ctorName, Text.ofString, String.utf8EncodeChar]
  have hne : ctorName m ≠ Text.ofString "cto" ++ t := by
    intro heq
    have hdigit : 0x30 ≤ UInt8.toNat 0x72 ∧ UInt8.toNat 0x72 ≤ 0x39 :=
      digit_of_freeName_eq (hobject.trans (heq.symm.trans hname))
    exact absurd hdigit.2 (by decide)
  rw [hlocals]
  exact fun hmem => (List.mem_append.1 (show _ ∈ [_, _, _] ++ [_] from hmem)).elim hothers
    fun h => hne (List.mem_singleton.1 h)

end ConstructorCode

/-! ### Runs -/

mutual

/-- A function that is given a handle runs constructors, each with a handle. -/
inductive FileCode.Runs (code : FileCode) {ρ : Type} : Text → HandleValue ρ → List (Text × HandleValue ρ) → Prop
  | ctor {part : MeaningCode} {h : HandleValue ρ} (hpart : part ∈ code.meanings)
      (hmeaning : h.meaning = part.constructors.profile.name) :
      FileCode.Runs code (ctorName part.constructors.profile.name) h [(ctorName part.constructors.profile.name, h)]
  | init {part : MeaningCode} {h : HandleValue ρ} {t : List (Text × HandleValue ρ)} (hpart : part ∈ code.meanings)
      (hmeaning : h.meaning = part.constructors.initializer.meaning)
      (hresolves : part.constructors.initializer.Resolves code)
      (hcalls : FileCode.RunsAll code part.constructors.initializer.calls h t) :
      FileCode.Runs code part.constructors.initializer.name h t

/-- Calls run constructors one after the other. -/
inductive FileCode.RunsAll (code : FileCode) {ρ : Type} :
    List Activation → HandleValue ρ → List (Text × HandleValue ρ) → Prop
  | nil (h : HandleValue ρ) : FileCode.RunsAll code [] h []
  | cons {x : Activation} {xs : List Activation} {h inner : HandleValue ρ} {t u : List (Text × HandleValue ρ)}
      (hselect : h.select x.selectors = some inner) (hx : FileCode.Runs code x.function inner t)
      (hxs : FileCode.RunsAll code xs h u) : FileCode.RunsAll code (x :: xs) h (t ++ u)

end

/-- A factory that runs in an arena makes a handle of a new object and runs constructors. -/
structure Factory.Runs {α : Type} (f : Factory) (code : FileCode) (imported : List Text) (value : Nat → CellEntry → α)
    (arena : Nat) (m : Memory α) (new : HandleValue (Option ObjectHandle)) (m' : Memory α)
    (t : List (Text × HandleValue (Option ObjectHandle))) : Prop where
  resolves : f.Resolves code imported
  allocates : f.body.allocation.make? value arena m = some (new, m')
  calls : code.RunsAll f.body.calls new t

theorem FileCode.runsAll_cons {code : FileCode} {ρ : Type} {x : Activation} {xs : List Activation} {h : HandleValue ρ}
    {t : List (Text × HandleValue ρ)} : code.RunsAll (x :: xs) h t ↔ ∃ inner u v, h.select x.selectors = some inner ∧
      code.Runs x.function inner u ∧ code.RunsAll xs h v ∧ t = u ++ v := by
  constructor
  · rintro ⟨⟩
    exact ⟨_, _, _, ‹_›, ‹_›, ‹_›, rfl⟩
  · rintro ⟨inner, u, v, hselect, hx, hxs, rfl⟩
    exact .cons hselect hx hxs

theorem FileCode.runsAll_nil {code : FileCode} {ρ : Type} {h : HandleValue ρ} {t : List (Text × HandleValue ρ)} :
    code.RunsAll [] h t ↔ t = [] := by
  constructor
  · rintro ⟨⟩
    rfl
  · rintro rfl
    exact .nil h

/-- All initializers of some meanings resolve. -/
def FileCode.Resolved (code : FileCode) (names : List Text) : Prop :=
  ∀ part ∈ code.meanings, part.handle.meaning ∈ names → part.constructors.initializer.Resolves code

end Code

namespace Analysis

variable {a : Analysis} {settings : Settings} {code : FileCode}

/-- The constructors along an ancestry, each with the handle of its own meaning that is embedded in the given one. -/
structure InOrder {ρ : Type} (asc : List Text) (h : HandleValue ρ) (t : List (Text × HandleValue ρ)) : Prop where
  functions : t.map Prod.fst = asc.map ctorName
  meanings : t.map (fun x => x.2.meaning) = asc
  inside : ∀ x ∈ t, x.2.storage = h.storage ∧
    ∃ path, handlePath asc h.meaning x.2.meaning = .ok path ∧ h.select path = some x.2

theorem initName_ne_ctorName (m n : Text) : initName m ≠ ctorName n := by
  simp [initName, ctorName, Text.ofString, String.utf8EncodeChar]

theorem Complete.profile_of_part (ha : a.Complete) (hcode : a.fileCode settings = .ok code) {part : MeaningCode}
    (hpart : part ∈ code.meanings) :
    part.constructors.profile ∈ a.profiles ∧ part.handle.meaning = part.constructors.profile.name := by
  obtain ⟨p, hp, root, below, methods, -, rfl⟩ := ha.exists_part hcode hpart
  exact ⟨hp, rfl⟩

theorem Complete.exists_part_of_name (ha : a.Complete) (hcode : a.fileCode settings = .ok code) {m : Text}
    (hm : m ∈ a.forest.names) : ∃ part ∈ code.meanings, part.constructors.profile.name = m := by
  obtain ⟨part, hpart, hmeaning, -⟩ := ha.exists_handle hcode hm
  exact ⟨part, hpart, (ha.profile_of_part hcode hpart).2.symm.trans hmeaning⟩

/-- Parts whose meanings have one generated name are the same. -/
theorem Complete.part_of_word (ha : a.Complete) (hclean : a.findings = []) (hcode : a.fileCode settings = .ok code)
    {part part' : MeaningCode} (hpart : part ∈ code.meanings) (hpart' : part' ∈ code.meanings) {word : Text}
    (heq : word ++ part.constructors.profile.name.capitalize = word ++ part'.constructors.profile.name.capitalize) :
    part = part' := by
  obtain ⟨hp, hself⟩ := ha.profile_of_part hcode hpart
  obtain ⟨hp', hself'⟩ := ha.profile_of_part hcode hpart'
  refine ha.part_unique hcode hpart hpart' ?_
  rw [hself, hself']
  exact (ha.unambiguous hclean).word_inj (ha.name_mem hp) (ha.name_mem hp') heq

/-! ### Constructors along an ancestry -/

section

variable {ρ : Type} {h : HandleValue ρ} {t : List (Text × HandleValue ρ)} {part : MeaningCode}

theorem Complete.runs_ctor_iff (ha : a.Complete) (hclean : a.findings = []) (hcode : a.fileCode settings = .ok code)
    (hpart : part ∈ code.meanings) : code.Runs (ctorName part.constructors.profile.name) h t ↔
      h.meaning = part.constructors.profile.name ∧ t = [(ctorName part.constructors.profile.name, h)] := by
  constructor
  · intro hrun
    generalize hf : ctorName part.constructors.profile.name = f at hrun
    cases hrun with
    | ctor hpart' hmeaning =>
      obtain rfl := ha.part_of_word hclean hcode hpart hpart' hf
      exact ⟨hmeaning, rfl⟩
    | init hpart' _ _ _ => exact absurd hf.symm (initName_ne_ctorName _ _)
  · rintro ⟨hmeaning, rfl⟩
    exact .ctor hpart hmeaning

theorem Complete.runs_init_iff (ha : a.Complete) (hclean : a.findings = []) (hcode : a.fileCode settings = .ok code)
    (hpart : part ∈ code.meanings) : code.Runs (initName part.constructors.profile.name) h t ↔
      h.meaning = part.constructors.profile.name ∧ part.constructors.initializer.Resolves code ∧
        code.RunsAll (part.constructors.calls receiverName) h t := by
  constructor
  · intro hrun
    generalize hf : initName part.constructors.profile.name = f at hrun
    cases hrun with
    | ctor hpart' _ => exact absurd hf (initName_ne_ctorName _ _)
    | init hpart' hmeaning hresolves hcalls =>
      obtain rfl := ha.part_of_word hclean hcode hpart hpart' hf
      exact ⟨hmeaning, hresolves, hcalls⟩
  · rintro ⟨hmeaning, hresolves, hcalls⟩
    exact .init hpart hmeaning hresolves hcalls

/-- The own constructor of a meaning is called on the handle itself. -/
theorem Complete.runsAll_own (ha : a.Complete) (hclean : a.findings = []) (hcode : a.fileCode settings = .ok code)
    (hpart : part ∈ code.meanings) (hmeaning : h.meaning = part.constructors.profile.name) (var : Text) :
    code.RunsAll [⟨ctorName part.constructors.profile.name, var, []⟩] h t ↔
      t = [(ctorName part.constructors.profile.name, h)] := by
  rw [FileCode.runsAll_cons]
  simp only [ha.runs_ctor_iff hclean hcode hpart, FileCode.runsAll_nil]
  constructor
  · rintro ⟨inner, u, v, hselect, ⟨-, rfl⟩, rfl, rfl⟩
    obtain rfl := Option.some.inj hselect
    rfl
  · rintro rfl
    exact ⟨h, _, [], rfl, ⟨hmeaning, rfl⟩, rfl, rfl⟩

end

theorem Complete.calls_root (ha : a.Complete) (hcode : a.fileCode settings = .ok code) {part : MeaningCode}
    (hpart : part ∈ code.meanings) (hroot : a.forest.parent? part.constructors.profile.name = none) (var : Text) :
    part.constructors.calls var = [⟨ctorName part.constructors.profile.name, var, []⟩] := by
  rw [ConstructorCode.calls, constructCalls, ha.parent?_eq (ha.profile_of_part hcode hpart).1, hroot]
  rfl

theorem Complete.calls_child (ha : a.Complete) (hcode : a.fileCode settings = .ok code) {part : MeaningCode}
    (hpart : part ∈ code.meanings) {q : Text} (hq : a.forest.parent? part.constructors.profile.name = some q)
    (var : Text) :
    part.constructors.calls var =
      [⟨initName q, var, [q]⟩, ⟨ctorName part.constructors.profile.name, var, []⟩] := by
  rw [ConstructorCode.calls, constructCalls, ha.parent?_eq (ha.profile_of_part hcode hpart).1, hq]
  rfl

/-- A typed handle of a meaning with a parent has the handle of the parent inside. -/
theorem Complete.exists_sub (ha : a.Complete) (hcode : a.fileCode settings = .ok code) {ρ : Type} {h : HandleValue ρ}
    (ht : h.Typed code) {q : Text} (hq : a.forest.parent? h.meaning = some q) :
    ∃ n inner, h = .sub n inner ∧ inner.Typed code ∧ inner.meaning = q := by
  cases h with
  | root n s =>
    obtain ⟨part, hpart, rfl, hnone⟩ := ht
    have hq : a.forest.parent? part.handle.meaning = some q := hq
    rw [ha.handle_parent hcode hpart, hq] at hnone
    cases hnone
  | sub n inner =>
    obtain ⟨⟨part, hpart, rfl, hsome⟩, ht⟩ := ht
    have hq : a.forest.parent? part.handle.meaning = some q := hq
    rw [ha.handle_parent hcode hpart, hq] at hsome
    exact ⟨_, inner, rfl, ht, (Option.some.inj hsome).symm⟩

/-- Below a parent the initializer of the parent is called on the handle inside, and then the own constructor. -/
theorem Complete.runsAll_child (ha : a.Complete) (hclean : a.findings = []) (hcode : a.fileCode settings = .ok code)
    {part : MeaningCode} (hpart : part ∈ code.meanings) {ρ : Type} {n : Text} {inner : HandleValue ρ}
    (hq : a.forest.parent? part.constructors.profile.name = some inner.meaning)
    (hmeaning : n = part.constructors.profile.name) (var : Text) (t : List (Text × HandleValue ρ)) :
    code.RunsAll (part.constructors.calls var) (.sub n inner) t ↔ ∃ u, code.Runs (initName inner.meaning) inner u ∧
      t = u ++ [(ctorName part.constructors.profile.name, .sub n inner)] := by
  have hself : (HandleValue.sub n inner).meaning = part.constructors.profile.name := hmeaning
  have hinside : (HandleValue.sub n inner).select [inner.meaning] = some inner := if_pos rfl
  rw [ha.calls_child hcode hpart hq, FileCode.runsAll_cons]
  simp only [ha.runsAll_own hclean hcode hpart hself, hinside]
  constructor
  · rintro ⟨_, u, _, ⟨⟩, hrun, rfl, rfl⟩
    exact ⟨u, hrun, rfl⟩
  · rintro ⟨u, hrun, rfl⟩
    exact ⟨inner, u, _, rfl, hrun, rfl, rfl⟩

theorem InOrder.root {ρ : Type} {h : HandleValue ρ} {m : Text} (hmeaning : h.meaning = m) :
    InOrder [m] h [(ctorName m, h)] := by
  subst hmeaning
  exact ⟨rfl, rfl, List.forall_mem_singleton.2 ⟨rfl, [], handlePath_self (l := []) (by simp), rfl⟩⟩

/-- Below a parent the constructor of a meaning comes after those for the handle inside. -/
theorem InOrder.child {ρ : Type} {inner : HandleValue ρ} {m : Text} {l : List Text} {t : List (Text × HandleValue ρ)}
    (h : InOrder (l ++ [inner.meaning]) inner t) (hnd : (l ++ [inner.meaning] ++ [m]).Nodup) :
    InOrder (l ++ [inner.meaning] ++ [m]) (.sub m inner) (t ++ [(ctorName m, .sub m inner)]) := by
  refine ⟨?_, ?_, List.forall_mem_append.2 ⟨fun x hx => ?_, List.forall_mem_singleton.2 ⟨rfl, [], ?_, rfl⟩⟩⟩
  · rw [List.map_append, h.functions]
    simp
  · rw [List.map_append, h.meanings]
    rfl
  · obtain ⟨hstorage, path, hpath, hselect⟩ := h.inside x hx
    have hmem : x.2.meaning ∈ l ++ [inner.meaning] := h.meanings ▸ List.mem_map_of_mem hx
    obtain ⟨path', hpath', hwhole⟩ := handlePath_concat hnd hmem
    obtain rfl := Except.ok.inj (hpath.symm.trans hpath')
    exact ⟨hstorage, _, hwhole, (if_pos rfl).trans hselect⟩
  · exact handlePath_self hnd

/-- The calls that construct an object run the constructors along the ancestry, from the root on, if all initializers on
the way resolve, and otherwise none. -/
theorem Complete.exists_inOrder (ha : a.Complete) (hclean : a.findings = []) (hcode : a.fileCode settings = .ok code)
    {m : Text} {asc : List Text} (hasc : Lineage a.forest.parent? m asc) {part : MeaningCode}
    (hpart : part ∈ code.meanings) (hname : part.constructors.profile.name = m) {ρ : Type} {h : HandleValue ρ}
    (ht : h.Typed code) (hmeaning : h.meaning = m) : ∃ t, InOrder asc h t ∧ ∀ var u,
      code.RunsAll (part.constructors.calls var) h u ↔ code.Resolved asc.dropLast ∧ u = t := by
  induction hasc generalizing part h with
  | @root m hroot =>
    subst hname
    refine ⟨_, .root hmeaning, fun var u => ?_⟩
    rw [ha.calls_root hcode hpart hroot, ha.runsAll_own hclean hcode hpart hmeaning]
    exact (and_iff_right nofun).symm
  | @child m q l hq hl ih =>
    have hnd := (Lineage.child hq hl).nodup
    obtain ⟨r, rfl⟩ := hl.exists_eq_append
    obtain ⟨n, inner, rfl, ht, rfl⟩ := ha.exists_sub hcode ht (hmeaning ▸ hq)
    obtain rfl : n = m := hmeaning
    obtain ⟨above, habove, hup⟩ := ha.exists_part_of_name hcode (ha.sound.closed _ _ hq)
    obtain ⟨t, horder, hruns⟩ := ih habove hup ht rfl
    refine ⟨_, horder.child hnd, fun var u => ?_⟩
    -- the initializer of the parent resolves, as do those above it
    have hinit : ∀ v, code.Runs (initName inner.meaning) inner v ↔ code.Resolved (r ++ [inner.meaning]) ∧ v = t := by
      intro v
      have hself := (ha.profile_of_part hcode habove).2.trans hup
      have hresolved : code.Resolved (r ++ [inner.meaning]) ↔
          above.constructors.initializer.Resolves code ∧ code.Resolved r := by
        constructor
        · intro hall
          exact ⟨hall above habove (by simp [hself]), fun part hpart hmem => hall part hpart
            (List.mem_append_left _ hmem)⟩
        · rintro ⟨hown, hall⟩ part hpart hmem
          rcases List.mem_append.1 hmem with hmem | hmem
          · exact hall part hpart hmem
          · rw [List.mem_singleton, ← hself] at hmem
            exact ha.part_unique hcode hpart habove hmem ▸ hown
      rw [← hup, ha.runs_init_iff hclean hcode habove, hruns, hup, hresolved, List.dropLast_concat]
      grind only
    rw [ha.runsAll_child hclean hcode hpart (hname ▸ hq) hname.symm, List.dropLast_concat, hname]
    simp only [hinit]
    constructor
    · rintro ⟨v, ⟨hresolved, rfl⟩, rfl⟩
      exact ⟨hresolved, rfl⟩
    · rintro ⟨hresolved, rfl⟩
      exact ⟨t, ⟨hresolved, rfl⟩, rfl⟩

/-! ### Names in the bodies -/

/-- A function that is called is named after a meaning. -/
theorem Complete.exists_of_mem_calls (ha : a.Complete) (hcode : a.fileCode settings = .ok code) {part : MeaningCode}
    (hpart : part ∈ code.meanings) {var : Text} {x : Activation} (hx : x ∈ part.constructors.calls var) :
    x.var = var ∧ ∃ m ∈ a.forest.names, x.function = initName m ∨ x.function = ctorName m := by
  obtain ⟨hp, -⟩ := ha.profile_of_part hcode hpart
  cases hq : a.forest.parent? part.constructors.profile.name with
  | none =>
    rw [ha.calls_root hcode hpart hq] at hx
    obtain rfl := List.mem_singleton.1 hx
    exact ⟨rfl, _, ha.name_mem hp, .inr rfl⟩
  | some q =>
    rw [ha.calls_child hcode hpart hq] at hx
    rcases List.mem_cons.1 hx with rfl | hx
    · exact ⟨rfl, q, ha.sound.closed _ _ hq, .inl rfl⟩
    · obtain rfl := List.mem_singleton.1 hx
      exact ⟨rfl, _, ha.name_mem hp, .inr rfl⟩

theorem function_notMem_locals {m function : Text} (h : function = initName m ∨ function = ctorName m)
    (c : ConstructorCode) : function ∉ c.locals := by
  rcases h with rfl | rfl
  · exact c.initName_notMem_locals m
  · exact c.ctorName_notMem_locals m

theorem Complete.function_mem (ha : a.Complete) (hcode : a.fileCode settings = .ok code) {m function : Text}
    (hm : m ∈ a.forest.names) (h : function = initName m ∨ function = ctorName m) : function ∈ code.packageNames := by
  refine ha.mem_packageNames hcode hm ?_
  rcases h with rfl | rfl <;> simp [Forest.topLevel, topLevelNames]

/-- The calls of an initializer resolve exactly if no other name of its head is one of the names in them. -/
theorem Complete.resolves_initializer_iff (ha : a.Complete) (hcode : a.fileCode settings = .ok code)
    {part : MeaningCode}
    (hpart : part ∈ code.meanings) :
    part.constructors.initializer.Resolves code ↔ part.constructors.initializer.Hygienic := by
  have hdeclared : ∀ x ∈ part.constructors.calls receiverName, x.var = receiverName ∧ x.function ≠ receiverName ∧
      x.function ∈ code.packageNames := by
    intro x hx
    obtain ⟨hvar, m, hm, hfunction⟩ := ha.exists_of_mem_calls hcode hpart hx
    refine ⟨hvar, fun heq => ?_, ha.function_mem hcode hm hfunction⟩
    exact function_notMem_locals hfunction part.constructors (heq ▸ List.mem_cons_of_mem _ (List.mem_cons_self ..))
  constructor
  · rintro ⟨hdistinct, -, hfunctions⟩ name hname hmem
    rcases List.mem_cons.1 hmem with rfl | hmem
    · exact hdistinct hname
    · obtain ⟨x, hx, rfl⟩ := List.mem_map.1 hmem
      exact (FileCode.origin_eq_declared.1 (hfunctions x hx)).1 (List.mem_cons_of_mem _ hname)
  · intro hhygienic
    refine ⟨fun hmem => hhygienic _ hmem (List.mem_cons_self ..), fun x hx => (hdeclared x hx).1, fun x hx => ?_⟩
    obtain ⟨-, hne, hmem⟩ := hdeclared x hx
    refine FileCode.origin_eq_declared.2 ⟨fun hlocal => ?_, hmem⟩
    rcases List.mem_cons.1 hlocal with heq | hlocal
    · exact hne heq
    · exact hhygienic _ hlocal (List.mem_cons_of_mem _ (List.mem_map_of_mem hx))

/-- The types in the allocation of a factory are those of the handles, layers and tags of the ancestry. -/
theorem Complete.mem_types_iff (ha : a.Complete) (hcode : a.fileCode settings = .ok code) {part : MeaningCode}
    (hpart : part ∈ code.meanings) {type : Text} : type ∈ part.constructors.allocation.types ↔
      type ∈ part.constructors.profile.ascending ∨ type ∈ part.constructors.profile.ascending.map layerName ∨
        type ∈ layerTags part.constructors.profile.ascending ∨ type = terminalName part.constructors.profile.name := by
  obtain ⟨p, hp, root, below, methods, hchain, rfl⟩ := ha.exists_part hcode hpart
  obtain ⟨-, -, hasc, -⟩ := ha.exists_root hp
  have hnames : (root :: below).map (·.name) = p.ascending := hchain.names_eq
  have hlast : ((root :: below).map (·.name)).getLast? = some p.name := hnames ▸ hasc.getLast?_eq
  have hliteral := @LayerLiteral.mem_types_ofChain root below p.name type hlast
  rw [hnames] at hliteral
  show type ∈ ((below.map (·.name)).reverse ++ [root.name]) ++ layerName root.name ::
      (LayerLiteral.ofChain root.name root.fields (below.map fun q => (q.name, q.fields))).composite.types ↔
    type ∈ p.ascending ∨ type ∈ p.ascending.map layerName ∨ type ∈ layerTags p.ascending ∨ type = terminalName p.name
  rw [List.mem_append, List.mem_cons, hliteral, ← hnames, List.map_cons]
  simp only [List.mem_append, List.mem_reverse, List.mem_cons, List.not_mem_nil, or_false, List.map_cons]
  grind only

/-- These types are declarations of the file, and none of them is called like the parameter for the arena if no meaning
of the ancestry is. -/
theorem Complete.types_declared (ha : a.Complete) (hcode : a.fileCode settings = .ok code) {part : MeaningCode}
    (hpart : part ∈ code.meanings) {type : Text} (htype : type ∈ part.constructors.allocation.types)
    (harena : part.constructors.arenaVariable ∉ part.constructors.profile.ascending) :
    type ≠ part.constructors.arenaVariable ∧ type ∈ code.packageNames := by
  obtain ⟨hp, -⟩ := ha.profile_of_part hcode hpart
  obtain ⟨-, -, hasc, -⟩ := ha.exists_root hp
  have hsubset := ha.constructionNames_subset hcode hasc (ha.name_mem hp)
  have hlayer : ∀ t, Text.ofString "layer" ++ t ≠ part.constructors.arenaVariable := fun t heq =>
    part.constructors.layer_notMem_locals t (heq ▸ List.mem_cons_of_mem _
      (List.mem_cons_of_mem _ (List.mem_cons_self ..)))
  have hmem := (ha.mem_types_iff hcode hpart).1 htype
  refine ⟨?_, hsubset ?_⟩
  · rcases hmem with hmem | hmem | hmem | rfl
    · exact fun heq => harena (heq ▸ hmem)
    · obtain ⟨m, -, rfl⟩ := List.mem_map.1 hmem
      exact hlayer _
    · obtain ⟨m, n, -, rfl⟩ := exists_of_mem_layerTags hmem
      rw [toLayerName, layerName, List.append_assoc, List.append_assoc]
      exact hlayer _
    · rw [terminalName, layerName, List.append_assoc]
      exact hlayer _
  · simp only [constructionNames, List.mem_append, List.mem_cons]
    grind only

/-- A factory and an initializer resolve if no parameter has the name of something in their bodies, no declaration of
the file hides the runtime package, and no meaning of the ancestry is called like the parameter for the arena. -/
theorem Complete.resolves_iff_hygienic (ha : a.Complete) (hcode : a.fileCode settings = .ok code) {part : MeaningCode}
    (hpart : part ∈ code.meanings) {imported : List Text} (himported : runtimeName ∈ imported) :
    part.constructors.factory.Resolves code imported ∧ part.constructors.initializer.Resolves code ↔
      runtimeName ∉ code.packageNames ∧ part.constructors.Hygienic ∧
        part.constructors.arenaVariable ∉ part.constructors.profile.ascending := by
  obtain ⟨hp, -⟩ := ha.profile_of_part hcode hpart
  obtain ⟨-, -, hasc, -⟩ := ha.exists_root hp
  have hfunctions : (part.constructors.calls part.constructors.objectVariable).map (·.function) =
      (part.constructors.calls receiverName).map (·.function) := part.constructors.map_function_calls _ _
  rw [ha.resolves_initializer_iff hcode hpart]
  constructor
  · rintro ⟨⟨⟨harena, hobject⟩, -, hpackages, htypes, -, -, -⟩, hinit⟩
    have hpackage := FileCode.origin_eq_imported.1 (hpackages runtimeName (List.mem_cons_self ..))
    refine ⟨hpackage.2.1, fun name hname hmem => ?_, fun hmem => ?_⟩
    · rcases ConstructorCode.mem_references_iff.1 hmem with hmem | hmem | rfl | rfl | hmem
      · exact (FileCode.origin_eq_declared.1 (htypes name hmem)).1 (List.mem_cons_of_mem _ hname)
      · exact (FileCode.origin_eq_imported.1 (hpackages name hmem)).1 (List.mem_cons_of_mem _ hname)
      · exact harena hname
      · exact hobject (List.mem_cons_of_mem _ hname)
      · exact hinit name hname hmem
    · have htype := htypes _ ((ha.mem_types_iff hcode hpart).2 (.inl hmem))
      exact (FileCode.origin_eq_declared.1 htype).1 (List.mem_cons_self ..)
  · rintro ⟨hpackage, hhygienic, harena⟩
    have hfree : ∀ name ∈ part.constructors.references, name ∉ part.constructors.parameters :=
      fun name hmem hname => hhygienic name hname hmem
    simp only [ConstructorCode.mem_references_iff] at hfree
    have hlocals := part.constructors.nodup_locals
    simp only [ConstructorCode.locals, List.nodup_cons, List.mem_cons, List.not_mem_nil, or_false, not_or] at hlocals
    obtain ⟨⟨-, hruntime, -⟩, -, hobject, -⟩ := hlocals
    -- what is meant at package level is no parameter and not the arena
    have hoff : ∀ name ∉ part.constructors.parameters, name ≠ part.constructors.arenaVariable →
        name ∉ part.constructors.arenaVariable :: part.constructors.parameters := by
      intro name hname hne hmem
      exact (List.mem_cons.1 hmem).elim hne hname
    refine ⟨⟨⟨hfree _ (.inr (.inr (.inl rfl))),
        hoff _ (hfree _ (.inr (.inr (.inr (.inl rfl))))) (Ne.symm hobject)⟩, rfl,
      fun package hmem => ?_, fun type hmem => ?_, fun x hx => (ha.exists_of_mem_calls hcode hpart hx).1,
      fun x hx => ?_, rfl⟩, fun name hname hmem => ?_⟩
    · obtain rfl : package = runtimeName := by
        rcases List.mem_cons.1 hmem with rfl | hmem
        · rfl
        · exact LayerLiteral.eq_of_mem_packages hmem
      exact FileCode.origin_eq_imported.2 ⟨hoff _ (hfree _ (.inr (.inl hmem))) hruntime, hpackage, himported⟩
    · obtain ⟨hne, hdeclared⟩ := ha.types_declared hcode hpart hmem harena
      exact FileCode.origin_eq_declared.2 ⟨hoff _ (hfree _ (.inl hmem)) hne, hdeclared⟩
    · obtain ⟨-, m, hm, hfunction⟩ := ha.exists_of_mem_calls hcode hpart hx
      have hnot := function_notMem_locals hfunction part.constructors
      have hmem : x.function ∈ (part.constructors.calls receiverName).map (·.function) :=
        hfunctions ▸ List.mem_map_of_mem hx
      refine FileCode.origin_eq_declared.2 ⟨fun hlocal => ?_, ha.function_mem hcode hm hfunction⟩
      rcases List.mem_cons.1 hlocal with heq | hlocal
      · exact hnot (heq ▸ List.mem_of_getLast? rfl)
      · exact hoff _ (hfree _ (.inr (.inr (.inr (.inr (List.mem_cons_of_mem _ hmem))))))
          (fun heq => hnot (heq ▸ List.mem_cons_of_mem _ (List.mem_cons_of_mem _ (List.mem_cons_self ..)))) hlocal
    · exact hfree name (.inr (.inr (.inr (.inr hmem)))) hname

/-! ### Printed constructors -/

/-- What the functions that construct objects of a declared meaning are printed as.  The body of the factory is an
allocation, calls, and the variable that is returned; that of the initializer is calls; the constructor has the body
that is declared. -/
structure PrintsConstruction (file : DeclFile) (code : FileCode) (d : MeaningDecl) (c : ConstructorCode) : Prop where
  factory : ∃ comment, c.newLines = line comment ::
    braced ("func " ++ newName d.name ++ typeParamList c.profile.ctor ++ "(" ++
        andMore (c.arenaVariable ++ " *" ++ code.arena) (Profile.constructorDecl d).params ++ ")" ++ " " ++ d.name)
      (c.allocation.lines ++ (constructCalls c.profile c.objectVariable).map (fun call => line call.text) ++
        [line (Text.ofString "return " ++ c.objectVariable)])
  initializer : c.initLines =
    braced ("func " ++ initName d.name ++ typeParamList c.profile.ctor ++ "(" ++
        andMore (receiverName ++ " " ++ d.name) (Profile.constructorDecl d).params ++ ")")
      ((constructCalls c.profile receiverName).map fun call => line call.text)
  own : line ("func " ++ ctorName d.name ++ typeParamList c.profile.ctor ++ "(" ++
        andMore (receiverName ++ " " ++ d.name) (Profile.constructorDecl d).params ++ ")" ++ " \x7b") ::
      bodyLines (Profile.constructorDecl d).body ++ [line "\x7d", blank] <:+: code.lines
  readFactory : Stands file code FactoryBody.read? c.newLines c.factory.body
  readInitializer : Stands file code readInitializer? c.initLines c.initializer.calls

theorem Complete.worded_calls (ha : a.Complete) (hclean : a.findings = []) (hworded : a.file.Worded) {p : Profile}
    (hp : p ∈ a.profiles) {var : Text} (hvar : IsIdent var) : ∀ c ∈ constructCalls p var, c.Worded := by
  have hname := ha.isIdent hclean hworded (ha.name_mem hp)
  have htypeArgs : typeArgList p.ctor = [] ∨ ∃ s, 0x5d ∉ s ∧ typeArgList p.ctor = 0x5b :: (s ++ [0x5d]) := by
    rw [typeArgList]
    split
    · exact .inl rfl
    · have hnames := Host.isName_of_parseTypeParams (ha.ctor_clean hclean hp).2
      exact .inr ⟨_, Host.notMem_join hnames (by decide) (by decide), rfl⟩
  intro c hc
  rcases List.mem_append.1 hc with hc | hc
  · rw [ha.parent?_eq hp] at hc
    cases hq : a.forest.parent? p.name with
    | none =>
      rw [hq] at hc
      cases hc
    | some q =>
      rw [hq] at hc
      obtain rfl := List.mem_singleton.1 hc
      have hq := ha.isIdent hclean hworded (ha.sound.closed _ _ hq)
      exact ⟨isIdent_initName hq.word, hvar, List.forall_mem_singleton.2 hq, .inl rfl⟩
  · obtain rfl := List.mem_singleton.1 hc
    exact ⟨isIdent_ctorName hname.word, hvar, nofun, htypeArgs⟩

theorem Chain.printsConstruction {root : Profile} {below : List Profile} {p : Profile} {methods : List MethodCode}
    (h : a.Chain p.ascending (root :: below)) (ha : a.Complete) (hclean : a.findings = [])
    (hcode : a.fileCode settings = .ok code) (hp : p ∈ a.profiles)
    (hpart : a.codeOf p root below methods ∈ code.meanings) :
    PrintsConstruction a.file code p.decl (a.codeOf p root below methods).constructors := by
  have hlines := ConstructorCode.lines_infix hpart
  have hallocation := fun hworded => h.worded_allocation ha hclean hworded
    (c := (a.codeOf p root below methods).constructors) rfl rfl rfl
  have hprofile : (a.codeOf p root below methods).constructors.profile = p := rfl
  have harena : (a.codeOf p root below methods).constructors.arenaType = code.arena := (fileCode_arena hcode).symm
  generalize (a.codeOf p root below methods).constructors = c at *
  obtain rfl : c.profile = p := hprofile
  have hdecl := ha.ctor_decl hp
  have hfactory : ∃ comment, c.newLines = line comment :: braced (c.head (newName c.profile.name)
      (c.arenaVariable ++ " *" ++ c.arenaType) ++ " " ++ c.profile.name) (c.allocation.lines ++
        (constructCalls c.profile c.objectVariable).map (fun call => line call.text) ++
        [line (Text.ofString "return " ++ c.objectVariable)]) := by
    rw [← c.allocationLines_eq]
    exact ⟨_, rfl⟩
  have hobject : IsIdent c.objectVariable := isIdent_freeName (by decide) _
  have hparts : c.ownLines ++ c.initLines <:+: code.lines := (List.prefix_append _ c.newLines).isInfix.trans hlines
  obtain ⟨comment, hnew⟩ := hfactory
  refine ⟨⟨comment, ?_⟩, ?_, ?_, ⟨?_, fun hworded => ?_⟩, ⟨?_, fun hworded => ?_⟩⟩
  · rw [hnew, ConstructorCode.head, hdecl, harena]
    rfl
  · rw [← hdecl]
    rfl
  · rw [← hdecl]
    exact (List.prefix_append c.ownLines _).isInfix.trans hparts
  · exact (List.suffix_append _ _).isInfix.trans hlines
  · rw [hnew]
    exact FactoryBody.read?_lines (hallocation hworded) (ha.worded_calls hclean hworded hp hobject) _ _ _
  · exact (List.suffix_append c.ownLines _).isInfix.trans hparts
  · exact readInitializer?_lines (ha.worded_calls hclean hworded hp (by decide)) _

/-! ### The construction of objects -/

/-- A factory that is run in an open arena allocates an object of the ancestry, and then it runs the constructors along
the ancestry on its handle; an initializer that is run on a handle of the meaning runs the same ones. -/
structure RunsInOrder (code : FileCode) (imported asc : List Text) (c : ConstructorCode) : Prop where
  factory : ∀ {α : Type} (value : Nat → CellEntry → α) (m : Memory α) (arena : Nat),
    m.objects.isReleased arena = false →
    ∃ self m' o t, (∀ x y u, c.factory.Runs code imported value arena m x y u ↔ x = self ∧ y = m' ∧ u = t) ∧
      self.Typed code ∧ self.meaning = c.profile.name ∧ m'.objects.get self.storage = .ok o ∧ o.OfKind asc ∧
      InOrder asc self t
  initializer : ∀ {ρ : Type} (h : HandleValue ρ), h.Typed code → h.meaning = c.profile.name →
    ∃ t, (∀ u, code.Runs (initName c.profile.name) h u ↔ u = t) ∧ InOrder asc h t

/-- Nothing hides a name that the factory of a meaning or an initializer along its ancestry mentions: no declaration of
the file is called like the runtime package, no meaning of the ancestry like the parameter for the arena, and no
parameter of a constructor like something in the bodies. -/
structure Undisturbed (code : FileCode) (asc : List Text) (c : ConstructorCode) : Prop where
  package : runtimeName ∉ code.packageNames
  arena : c.arenaVariable ∉ asc
  own : c.Hygienic
  ancestors : ∀ part ∈ code.meanings, part.handle.meaning ∈ asc.dropLast → part.constructors.initializer.Hygienic

theorem Complete.undisturbed_iff (ha : a.Complete) (hcode : a.fileCode settings = .ok code) {part : MeaningCode}
    (hpart : part ∈ code.meanings) {imported : List Text} (himported : runtimeName ∈ imported) :
    Undisturbed code part.constructors.profile.ascending part.constructors ↔
      part.constructors.factory.Resolves code imported ∧ part.constructors.initializer.Resolves code ∧
        code.Resolved part.constructors.profile.ascending.dropLast := by
  have hresolved : ∀ names, code.Resolved names ↔ ∀ part ∈ code.meanings, part.handle.meaning ∈ names →
      part.constructors.initializer.Hygienic := fun names =>
    forall₂_congr fun part hpart => imp_congr_right fun _ => ha.resolves_initializer_iff hcode hpart
  rw [hresolved, ← and_assoc, ha.resolves_iff_hygienic hcode hpart himported]
  constructor
  · rintro ⟨hpackage, harena, hown, hancestors⟩
    exact ⟨⟨hpackage, hown, harena⟩, hancestors⟩
  · rintro ⟨⟨hpackage, hown, harena⟩, hancestors⟩
    exact ⟨hpackage, harena, hown, hancestors⟩

/-- There are handles of every meaning. -/
theorem Complete.exists_typed (ha : a.Complete) (hcode : a.fileCode settings = .ok code) {part : MeaningCode}
    (hpart : part ∈ code.meanings) :
    ∃ h : HandleValue Unit, h.Typed code ∧ h.meaning = part.constructors.profile.name := by
  obtain ⟨p, hp, root, below, methods, hchain, rfl⟩ := ha.exists_part hcode hpart
  obtain ⟨-, -, hasc, -⟩ := ha.exists_root hp
  have hnames : root.name :: below.map (·.name) = p.ascending := hchain.names_eq
  obtain ⟨ht, hmeaning, -⟩ := ha.typed_new hcode () (c := (a.codeOf p root below methods).constructors) (ha.name_mem hp)
    (hnames ▸ hasc)
  exact ⟨_, ht, hmeaning⟩

theorem Chain.runsInOrder_iff {root : Profile} {below : List Profile} {p : Profile} {methods : List MethodCode}
    (h : a.Chain p.ascending (root :: below)) (ha : a.Complete) (hclean : a.findings = [])
    (hcode : a.fileCode settings = .ok code) (hp : p ∈ a.profiles) (hasc : Lineage a.forest.parent? p.name p.ascending)
    (hpart : a.codeOf p root below methods ∈ code.meanings) {imported : List Text}
    (himported : runtimeName ∈ imported) :
    RunsInOrder code imported p.ascending (a.codeOf p root below methods).constructors ↔
      Undisturbed code p.ascending (a.codeOf p root below methods).constructors := by
  have hd := ha.name_mem hp
  have hmake := fun {α : Type} (value : Nat → CellEntry → α) (m : Memory α) (arena : Nat)
      (hopen : m.objects.isReleased arena = false) => h.exists_object ha hclean hasc hd hcode
    (c := (a.codeOf p root below methods).constructors) rfl rfl rfl value m hopen
  have hrun := fun {ρ : Type} {x : HandleValue ρ} (ht : x.Typed code) (hmeaning : x.meaning = p.name) =>
    ha.exists_inOrder hclean hcode hasc hpart rfl ht hmeaning
  refine Iff.trans ?_ (ha.undisturbed_iff hcode hpart himported).symm
  constructor
  · intro hruns
    obtain ⟨x, hnew, hself⟩ := ha.exists_typed hcode hpart
    obtain ⟨t, hinit, -⟩ := hruns.initializer x hnew hself
    obtain ⟨-, hown, hcalls⟩ := (ha.runs_init_iff hclean hcode hpart).1 ((hinit t).2 rfl)
    obtain ⟨u, -, hiff⟩ := hrun hnew hself
    obtain ⟨self, m', o, v, hfactory, -⟩ := hruns.factory (fun _ _ => ()) { objects := { arenas := [{}] } } 0 rfl
    exact ⟨((hfactory self m' v).2 ⟨rfl, rfl, rfl⟩).resolves, hown, ((hiff _ _).1 hcalls).1⟩
  · rintro ⟨hfactory, hown, hresolved⟩
    refine ⟨fun value m arena hopen => ?_, fun x ht hmeaning => ?_⟩
    · obtain ⟨self, o, m', hallocates, ⟨ht, hmeaning⟩, -, hholds, htags, hends, -⟩ := hmake value m arena hopen
      obtain ⟨t, horder, hiff⟩ := hrun ht hmeaning
      refine ⟨self, m', o, t, fun x y u => ⟨?_, ?_⟩, ht, hmeaning, hholds.object, ⟨htags, ?_⟩, horder⟩
      · rintro ⟨-, hallocates', hcalls⟩
        obtain ⟨rfl, rfl⟩ := Prod.mk.inj (Option.some.inj (hallocates'.symm.trans hallocates))
        exact ⟨rfl, rfl, ((hiff _ u).1 hcalls).2⟩
      · rintro ⟨rfl, rfl, rfl⟩
        exact ⟨hfactory, hallocates, (hiff _ u).2 ⟨hresolved, rfl⟩⟩
      · rw [hasc.getLast?_eq, hends, Option.map_some]
    · obtain ⟨t, horder, hiff⟩ := hrun ht hmeaning
      refine ⟨t, fun u => ?_, horder⟩
      rw [ha.runs_init_iff hclean hcode hpart, hiff]
      exact ⟨fun hu => hu.2.2.2, fun hu => ⟨hmeaning, hown, hresolved, hu⟩⟩

/-- The names of the parameters and of the type parameters that a declaration gives its constructor. -/
def parameterNames (d : MeaningDecl) : List Text × List Text :=
  ((((Signature.parse (Profile.constructorDecl d).params).toOption.map (·.names)).getD []),
    (parseTypeParams (Profile.constructorDecl d).typeParams).toOption.getD [])

theorem Complete.parameterNames_eq (ha : a.Complete) (hclean : a.findings = []) {p : Profile} (hp : p ∈ a.profiles) :
    parameterNames p.decl = (p.ctor.params.names, p.ctor.typeParams) := by
  obtain ⟨hparams, htypeParams⟩ := ha.ctor_clean hclean hp
  rw [parameterNames, hparams, htypeParams]
  rfl

/-- Where no parameter has the name of a declaration, only type parameters with the names of local variables are left.
-/
theorem Complete.undisturbed_of_notMem (ha : a.Complete) (hclean : a.findings = [])
    (hcode : a.fileCode settings = .ok code)
    (hpackage : runtimeName ∉ code.packageNames) (hparams : ∀ part ∈ code.meanings,
      ∀ name ∈ part.constructors.parameters, name ∉ receiverName :: code.packageNames) {part : MeaningCode}
    (hpart : part ∈ code.meanings) (harena : part.constructors.arenaVariable ∉ part.constructors.profile.ascending)
    (hlocals : ∀ name ∈ part.constructors.profile.ctor.typeParams, name ∉ part.constructors.locals) :
    Undisturbed code part.constructors.profile.ascending part.constructors := by
  refine ⟨hpackage, harena, fun name hname hmem => ?_, fun other hother _ name hname hmem =>
    hparams other hother name hname ?_⟩
  · obtain ⟨p, hp, root, below, methods, hchain, rfl⟩ := ha.exists_part hcode hpart
    obtain ⟨-, -, hasc, -⟩ := ha.exists_root hp
    rcases (mem_references hasc hchain name).1 hmem with hmem | hmem
    · have hdeclared := ha.constructionNames_subset hcode hasc (ha.name_mem hp) hmem
      exact hparams _ hpart name hname (List.mem_cons_of_mem _ hdeclared)
    · rcases List.mem_append.1 hname with hname | hname
      · exact ha.params_notMem_locals hclean hp hname hmem
      · exact hlocals name hname hmem
  · rcases List.mem_cons.1 hmem with rfl | hmem
    · exact List.mem_cons_self ..
    · obtain ⟨x, hx, rfl⟩ := List.mem_map.1 hmem
      obtain ⟨-, m, hm, hfunction⟩ := ha.exists_of_mem_calls hcode hother hx
      exact List.mem_cons_of_mem _ (ha.function_mem hcode hm hfunction)

/-- Construction of objects.  The functions of a meaning are printed as they are run, and they run the constructors
along the ancestry, each once and on its own handle of one new object, exactly if nothing hides the names in them. -/
theorem exists_constructed_iff {file : DeclFile} (h : ofFile settings file = .ok a) (hclean : a.findings = []) :
    ∃ code, a.fileCode settings = .ok code ∧ ∀ d ∈ file.meanings, ∃ asc, a.forest.ascending d.name = .ok asc ∧
      (asc.map ctorName).Nodup ∧ ∃ part ∈ code.meanings, (∀ c ∈ code.meanings, c.handle.meaning = d.name ↔ c = part) ∧
        part.constructors.profile.decl = d ∧ PrintsConstruction file code d part.constructors ∧
        ∀ imported, runtimeName ∈ imported →
          (RunsInOrder code imported asc part.constructors ↔ Undisturbed code asc part.constructors) := by
  obtain ⟨ha, rfl⟩ := complete_of_ofFile h
  obtain ⟨code, hcode⟩ := ha.exists_fileCode settings
  refine ⟨code, hcode, fun d hd => ?_⟩
  obtain ⟨p, hp, rfl, hasc, root, below, methods, hchain, hpart⟩ := ha.exists_codeOf hclean hcode hd
  refine ⟨p.ascending, ha.sound.ascending_eq hasc, ?_, _, hpart, ha.part_iff hcode hpart, rfl,
    hchain.printsConstruction ha hclean hcode hp hpart,
    fun imported himported => hchain.runsInOrder_iff ha hclean hcode hp hasc hpart himported⟩
  refine (List.nodup_map_iff_inj_on hasc.nodup).2 fun m hm n hn heq => ?_
  have hmem : ∀ x ∈ p.ascending, x ∈ a.forest.names := fun x hx =>
    ha.sound.mem_names_of_lineage hasc hx (ha.name_mem hp)
  exact (ha.unambiguous hclean).word_inj (hmem m hm) (hmem n hn) heq

/-- Three meanings below each other, with constructors that call each other. -/
def vehicles : DeclFile :=
  let constructor (typeParams params : Text) (superArgs : Option Text) : List ConstructorDecl :=
    [{ position := ⟨1, 1⟩, typeParams, params, superArgs, body := [] }]
  let meaning (name parent : Text) (constructors : List ConstructorDecl) : MeaningDecl :=
    { position := ⟨1, 1⟩, name, parent, parentPosition := ⟨1, 1⟩, doc := [], fields := [], constructors, methods := [] }
  { name := "vehicles.mt"
    meanings := [meaning "Vehicle" [] (constructor [] "wheels int" none),
      meaning "Car" "Vehicle" (constructor [] "cto string" (some (Text.ofString "4"))),
      meaning "Taxi" "Car" (constructor "T any" "fare T" (some (Text.ofString "\"x\"")))] }

theorem constructed_vehicles : ∃ a code part, @ofFile .english {} vehicles = .ok a ∧ a.findings = [] ∧
    a.fileCode {} = .ok code ∧ part ∈ code.meanings ∧ vehicles.Worded ∧
    RunsInOrder code [runtimeName] ["Vehicle", "Car", "Taxi"] part.constructors := by
  obtain ⟨a, hfile, hclean⟩ := exists_clean (by decide +kernel : @cleanInOrder .english {} vehicles)
  obtain ⟨code, hcode, hconstructed⟩ := exists_constructed_iff hfile hclean
  obtain ⟨d, hd, hname⟩ : ∃ d ∈ vehicles.meanings, d.name = "Taxi" := by decide +kernel
  obtain ⟨asc, hasc, -, part, hpart, -, hdecl, -, hiff⟩ := hconstructed d hd
  obtain ⟨ha, hdecls⟩ := complete_of_ofFile hfile
  have hforest := forest_of_ofFile hfile
  have hthree : a.forest.ascending "Taxi" = .ok ["Vehicle", "Car", "Taxi"] := by
    rw [hforest]
    decide +kernel
  rw [hname, hthree] at hasc
  obtain rfl := Except.ok.inj hasc
  obtain ⟨hp, hself⟩ := ha.profile_of_part hcode hpart
  obtain ⟨-, -, hlineage, -⟩ := ha.exists_root hp
  have hascending : part.constructors.profile.ascending = ["Vehicle", "Car", "Taxi"].map Text.ofString := by
    have hown := ha.sound.ascending_eq hlineage
    rw [Profile.name, hdecl, hname, hthree] at hown
    exact (Except.ok.inj hown).symm
  have hnames := ha.parameterNames_eq hclean hp
  rw [hdecl] at hnames
  have hfare : ∀ d ∈ vehicles.meanings, d.name = "Taxi" → parameterNames d =
    ([Text.ofString "fare"], [Text.ofString "T"]) := by
    decide +kernel
  obtain ⟨hparams, htypeParams⟩ := Prod.mk.inj (hnames.symm.trans (hfare d hd hname))
  have hpackageNames : ∀ name ∈ code.packageNames, name ∈ arenaOf {} vehicles ::
      (@Forest.ofDecls .english (arenaOf {} vehicles) vehicles.meanings).1.names.flatMap fun m =>
        m :: (@Forest.ofDecls .english (arenaOf {} vehicles) vehicles.meanings).1.topLevel m := by
    intro name hmem
    rw [ha.mem_packageNames_iff hcode, arena_of_ofFile hfile, hforest] at hmem
    simpa using hmem
  have hundisturbed : Undisturbed code part.constructors.profile.ascending part.constructors := by
    refine ha.undisturbed_of_notMem hclean hcode (fun hmem => ?_) (fun other hother name hmem hin => ?_) hpart ?_ ?_
    · exact absurd (hpackageNames _ hmem) (by decide +kernel)
    · have hfree : ∀ d ∈ vehicles.meanings, ∀ name ∈ (parameterNames d).1 ++ (parameterNames d).2,
          name ∉ receiverName :: arenaOf {} vehicles ::
            (@Forest.ofDecls .english (arenaOf {} vehicles) vehicles.meanings).1.names.flatMap fun m =>
              m :: (@Forest.ofDecls .english (arenaOf {} vehicles) vehicles.meanings).1.topLevel m := by
        decide +kernel
      obtain ⟨hq, -⟩ := ha.profile_of_part hcode hother
      refine hfree _ (hdecls ▸ (ha.profile_clean hclean hq).1) name ?_ ?_
      · rwa [ha.parameterNames_eq hclean hq]
      · exact (List.mem_cons.1 hin).elim (fun heq => heq ▸ List.mem_cons_self ..)
          fun hin => List.mem_cons_of_mem _ (hpackageNames name hin)
    · rw [ConstructorCode.arenaVariable, hparams, hascending]
      decide +kernel
    · rw [ConstructorCode.locals, ConstructorCode.arenaVariable, ConstructorCode.objectVariable, hparams, htypeParams]
      decide +kernel
  rw [hascending] at hundisturbed
  exact ⟨a, code, part, hfile, hclean, hcode, hpart, by decide +kernel, (hiff _ (by simp)).2 hundisturbed⟩

/-- In a file with a parameter that has the name of the parent's initializer, the constructor of the parent never runs:
the initializer prints a call of it, in which it is the parameter that is meant. -/
theorem constructed_fails_takenOver : ∃ a code part, @ofFile .english {} takenOver = .ok a ∧ a.findings = [] ∧
    a.fileCode {} = .ok code ∧ a.forest.ascending "B" = .ok ["A", "B"] ∧ part ∈ code.meanings ∧
    part.constructors.profile.name = "B" ∧ part.constructors.initLines = [⟨"func initB(self B, initA func(A)) \x7b", 0⟩,
      ⟨"initA(self.A)", 1⟩, ⟨"ctorB(self, initA)", 1⟩, ⟨"\x7d", 0⟩, blank] ∧
    (∀ {ρ : Type} (h : HandleValue ρ) t, ¬ code.Runs (initName "B") h t) ∧
    ∀ imported, ¬ RunsInOrder code imported ["A", "B"] part.constructors := by
  obtain ⟨a, hfile, hclean⟩ := exists_clean (by decide +kernel : @cleanInOrder .english {} takenOver)
  obtain ⟨ha, hdecls⟩ := complete_of_ofFile hfile
  obtain ⟨code, hcode⟩ := ha.exists_fileCode {}
  have htwo : a.forest.ascending "B" = .ok ["A", "B"] := by
    rw [forest_of_ofFile hfile]
    decide +kernel
  have hparent : a.forest.parent? "B" = some (Text.ofString "A") := by
    rw [forest_of_ofFile hfile]
    decide +kernel
  obtain ⟨part, hpart, hname⟩ := ha.exists_part_of_name hcode (Forest.mem_names_of_parent? hparent)
  obtain ⟨hp, -⟩ := ha.profile_of_part hcode hpart
  -- what the declaration of `B` has
  have hdecl : ∀ d ∈ takenOver.meanings, d.name = "B" → (Profile.constructorDecl d).params =
    Text.ofString "initA func(A)" ∧
      (Profile.constructorDecl d).typeParams = [] ∧ (Profile.constructorDecl d).superArgs = some [] ∧
        parameterNames d = ([initName "A"], []) ∧
        (Signature.parse "initA func(A)").toOption.map (·.args) = some (Text.ofString "initA") := by
    decide +kernel
  obtain ⟨hparams, htypeParams, hsuper, hnames, hargs⟩ := hdecl _ (hdecls ▸ (ha.profile_clean hclean hp).1) hname
  rw [← hparams, (ha.ctor_clean hclean hp).1] at hargs
  have hargs : part.constructors.profile.ctor.params.args = Text.ofString "initA" := Option.some.inj hargs
  obtain ⟨hnames, hnone⟩ := Prod.mk.inj ((ha.parameterNames_eq hclean hp).symm.trans hnames)
  rw [← ha.ctor_decl hp] at hparams htypeParams hsuper
  have hquiet : ¬ part.constructors.initializer.Hygienic := by
    intro h
    have hmem : initName "A" ∈ part.constructors.parameters :=
      List.mem_append_left _ (hnames ▸ List.mem_singleton_self _)
    refine h _ hmem (List.mem_cons_of_mem _ ?_)
    show initName "A" ∈ (part.constructors.calls receiverName).map (·.function)
    rw [ha.calls_child hcode hpart (hname ▸ hparent)]
    exact List.mem_cons_self ..
  have hresolves := mt (ha.resolves_initializer_iff hcode hpart).1 hquiet
  have hruns : ∀ {ρ : Type} (h : HandleValue ρ) t, ¬ code.Runs (initName "B") h t := by
    intro ρ h t hrun
    rw [← hname] at hrun
    exact hresolves ((ha.runs_init_iff hclean hcode hpart).1 hrun).2.1
  refine ⟨a, code, part, hfile, hclean, hcode, htwo, hpart, hname, ?_, hruns, fun imported horder => ?_⟩
  · rw [ConstructorCode.initLines, ConstructorCode.head, ConstructorCode.handleParam, typeParamList, constructCalls,
      typeArgList, ha.parent?_eq hp, hname, hparent, hparams, htypeParams, hsuper, hnone, hargs]
    decide +kernel
  · obtain ⟨h, ht, hmeaning⟩ := ha.exists_typed hcode hpart
    obtain ⟨t, hiff, -⟩ := horder.initializer h ht hmeaning
    exact hruns h t (hname ▸ (hiff t).2 rfl)

end Analysis

end MeaningForest

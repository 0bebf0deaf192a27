import MeaningForest.Proofs.Captured
import MeaningForest.Proofs.Generation
import MeaningForest.Proofs.Splices

/-!
# Fragments in generated code

Each place where the code of a meaning has a fragment of its declaration is a `Splice`.  `Profile.splices` lists them:
the types and defaults of fields in layers and accessors, parameters, results and type parameters in the heads of
functions, and the arguments for the constructor of the parent.
-/

namespace MeaningForest

open Lexeme Text

variable {lang : Language}

theorem Text.IsWord.inert {t : Text} (h : IsWord t) : Inert t := by
  have hmarks : marks.all (!isWordPart ·) := by decide
  intro b hb hmark
  have hpart := List.all_eq_true.1 hmarks b hmark
  rw [h b hb] at hpart
  cases hpart

namespace Code

/-! ### Places in the code of a meaning -/

/-- The cell of a field in its layer. -/
def typeSplice (f : FieldDecl) : Splice :=
  ⟨f.name ++ " " ++ (if f.isRef then Text.ofString "*" else []) ++ runtimeName ++ "." ++
    cellKind (Profile.slotOf f) ++ "[", [(f.type, "]")]⟩

/-- The initial cell of a field in a new object. -/
def initSplice (f : FieldDecl) : Splice :=
  ⟨f.name ++ ": " ++ runtimeName ++ ".New" ++ cellKind (Profile.slotOf f) ++ "[",
    if f.default.isEmpty then [(f.type, Text.ofString "](" ++ "*new("), (f.type, Text.ofString ")" ++ ")" ++ ",")]
    else [(f.type, "]("), (f.default, Text.ofString ")" ++ ",")]⟩

/-- The head of the getter of a field of `m`. -/
def getterSplice (m : Text) (f : FieldDecl) : Splice :=
  ⟨"func (" ++ receiverName ++ " " ++ m ++ ") " ++ f.name ++ "() ", [(f.type, " \x7b")]⟩

/-- The head of the setter of a field of `m`. -/
def setterSplice (m : Text) (f : FieldDecl) : Splice :=
  ⟨"func (" ++ receiverName ++ " " ++ m ++ ") " ++ setterName f.name ++ "(v ", [(f.type, Text.ofString ")" ++ " \x7b")]⟩

/-- The head of a method on the handle type of `m`. -/
def methodSplice (m name : Text) (f : MethodDecl) : Splice :=
  ⟨"func (" ++ receiverName ++ " " ++ m ++ ") " ++ name ++ "(",
    if f.results.isBlank then [(f.params, Text.ofString ")" ++ " \x7b")]
    else [(f.params, Text.ofString ")" ++ " "), (f.results, " \x7b")]⟩

/-- The parameters of a constructor function after a first one, which is given with the text that follows it. -/
def paramSplice (d : ConstructorDecl) (first : Text → Splice) (rest : Text) : Splice :=
  if d.params.isBlank then first rest
  else { first ", " with parts := (first ", ").parts ++ [(d.params, rest)] }

/-- The head of a constructor function. -/
def headSplice (d : ConstructorDecl) (name : Text) (first : Text → Splice) (rest : Text) : Splice :=
  let s := paramSplice d first rest
  if d.typeParams.isBlank then { s with head := "func " ++ name ++ s.head }
  else ⟨"func " ++ name ++ "[", (d.typeParams, "]" ++ s.head) :: s.parts⟩

/-- The parameter for the handle. -/
def handleFirst (m : Text) (rest : Text) : Splice := ⟨"(" ++ receiverName ++ " " ++ m ++ rest, []⟩

/-- The parameter for the arena, whose type may come from the settings. -/
def arenaFirst (name arena : Text) (rest : Text) : Splice := ⟨"(" ++ name ++ " ", [("*" ++ arena, rest)]⟩

/-- The call of the parent's constructors. -/
def superSplice (parent object args : Text) : Splice :=
  if args.isBlank then ⟨initName parent ++ "(" ++ object ++ "." ++ parent ++ ")", []⟩
  else ⟨initName parent ++ "(" ++ object ++ "." ++ parent ++ ", ", [(args, ")")]⟩

/-! ### Texts of the generator -/

section Sound

variable {m n : Text} {f : FieldDecl}

theorem inert_cellKind (f : FieldSlot) : Inert (cellKind f) := by
  unfold cellKind
  split <;> decide

theorem sound_typeSplice (hf : IsWord f.name) : (typeSplice f).Sound := by
  have hstar : Inert (if f.isRef then Text.ofString "*" else []) := by split <;> decide
  refine ⟨?_, Ended.append (by decide) _, ?_⟩
  · simp +decide [typeSplice, inert_append_iff, hf.inert, inert_cellKind, hstar]
  · simp +decide [typeSplice]

theorem sound_initSplice (hf : IsWord f.name) : (initSplice f).Sound := by
  refine ⟨?_, Ended.append (by decide) _, ?_⟩
  · simp +decide [initSplice, inert_append_iff, hf.inert, inert_cellKind]
  · unfold initSplice
    split <;> simp +decide

theorem sound_getterSplice (hm : IsWord m) (hf : IsWord f.name) : (getterSplice m f).Sound := by
  refine ⟨?_, Ended.append (by decide) _, ?_⟩
  · simp +decide [getterSplice, inert_append_iff, hm.inert, hf.inert]
  · simp +decide [getterSplice]

theorem sound_setterSplice (hm : IsWord m) (hf : IsWord f.name) : (setterSplice m f).Sound := by
  refine ⟨?_, Ended.append (by decide) _, ?_⟩
  · simp +decide [setterSplice, inert_append_iff, hm.inert, (isWord_setterName hf).inert]
  · simp +decide [setterSplice]

theorem sound_methodSplice (hm : IsWord m) (hn : IsWord n) (f : MethodDecl) : (methodSplice m n f).Sound := by
  refine ⟨?_, Ended.append (by decide) _, ?_⟩
  · simp +decide [methodSplice, inert_append_iff, hm.inert, hn.inert]
  · unfold methodSplice
    split <;> simp +decide

theorem sound_superSplice (hm : IsWord m) (hn : IsWord n) (args : Text) : (superSplice m n args).Sound := by
  have hinit := (isWord_initName hm).inert
  unfold superSplice
  split
  · refine ⟨?_, Ended.append (by decide) _, by simp⟩
    simp +decide [inert_append_iff, hm.inert, hn.inert, hinit]
  · refine ⟨?_, Ended.append (by decide) _, by simp +decide⟩
    simp +decide [inert_append_iff, hm.inert, hn.inert, hinit]

/-- A first parameter can be put into a head. -/
def IsFirst (first : Text → Splice) : Prop :=
  ∀ rest, Glue rest → Glue (first rest).head ∧ ∀ p ∈ (first rest).parts, Glue p.2

theorem isFirst_handleFirst (hm : IsWord m) : IsFirst (handleFirst m) := by
  intro rest hrest
  refine ⟨?_, by simp [handleFirst]⟩
  have hopen : Glue (Text.ofString "(") := by decide
  rw [handleFirst, List.append_assoc, List.append_assoc, List.append_assoc]
  refine hopen.append ?_ (((hrest.back.append _).append _).append _)
  simp +decide [inert_append_iff, hm.inert, hrest.inert]

theorem isFirst_arenaFirst (hn : IsWord n) (arena : Text) : IsFirst (arenaFirst n arena) := by
  intro rest hrest
  refine ⟨?_, by simpa [arenaFirst] using hrest⟩
  have hopen : Glue (Text.ofString "(") := by decide
  rw [arenaFirst, List.append_assoc]
  refine hopen.append ?_ (Ended.append (by decide) _)
  simp +decide [inert_append_iff, hn.inert]

theorem sound_headSplice (hn : IsWord n) {first : Text → Splice} (hfirst : IsFirst first) {rest : Text}
    (hrest : Glue rest) (d : ConstructorDecl) : (headSplice d n first rest).Sound := by
  -- what follows the type parameters is glue itself, with or without parameters of the constructor
  obtain ⟨hhead, hparts⟩ : Glue (paramSplice d first rest).head ∧ ∀ p ∈ (paramSplice d first rest).parts, Glue p.2 := by
    unfold paramSplice
    split
    · exact hfirst rest hrest
    · obtain ⟨hhead, hparts⟩ := hfirst ", " (by decide)
      refine ⟨hhead, fun p hp => ?_⟩
      rcases List.mem_append.1 hp with hp | hp
      · exact hparts p hp
      · exact List.mem_singleton.1 hp ▸ hrest
  unfold headSplice
  dsimp only
  split
  · refine ⟨?_, hhead.back.append _, hparts⟩
    simp +decide [inert_append_iff, hn.inert, hhead.inert]
  · refine ⟨?_, Ended.append (by decide) _, List.forall_mem_cons.2 ⟨?_, hparts⟩⟩
    · simp +decide [inert_append_iff, hn.inert]
    · have hclose : Glue (Text.ofString "]") := by decide
      exact hclose.append hhead.inert hhead.back

end Sound

/-! ### Lines -/

theorem texts_indented (ls : List Line) : (indented ls).map (·.text) = ls.map (·.text) := by
  simp [indented, Function.comp_def]

theorem texts_block (opening : Text) (body : List Line) (closing : Text) :
    (block opening body closing).map (·.text) = opening :: body.map (·.text) ++ [closing] := by
  simp [block, texts_indented, line]

theorem texts_braced (opening : Text) (body : List Line) : (braced opening body).map (·.text) =
    (opening ++ " \x7b") :: body.map (·.text) ++ [Text.ofString "\x7d", []] := by
  simp [braced, texts_block, blank]

theorem mem_texts_flatMap {α : Type} {lines : α → List Line} {xs : List α} {x : α} (hx : x ∈ xs) {t : Text}
    (ht : t ∈ (lines x).map (·.text)) : t ∈ (xs.flatMap lines).map (·.text) := by
  rw [List.map_flatMap]
  exact List.mem_flatMap.2 ⟨x, hx, ht⟩

theorem typeSplice_mem {l : LayerCode} {f : FieldDecl} (hf : Profile.slotOf f ∈ l.cells) :
    (typeSplice f).text ∈ l.lines.map (·.text) := by
  have htext : (typeSplice f).text = f.name ++ " " ++ cellType (Profile.slotOf f) := by
    simp only [Splice.text_eq, typeSplice, cellType, List.flatMap_cons, List.flatMap_nil, List.append_nil,
      List.append_assoc]
    rfl
  have hmem : (typeSplice f).text ∈ l.structLines.map (·.text) := by
    rw [LayerCode.structLines, texts_braced, htext]
    have hline := List.mem_map_of_mem (f := fun f => line (f.name ++ " " ++ cellType f)) hf
    simp only [List.map_append, List.mem_append, List.mem_cons]
    exact .inl (.inr (.inl (List.mem_map_of_mem (f := Line.text) hline)))
  simp only [LayerCode.lines, List.map_append, List.mem_append]
  exact .inl (.inl (.inl hmem))

theorem getterSplice_mem {a : AccessorCode} {f : FieldDecl} (hf : a.field = Profile.slotOf f) :
    (getterSplice a.meaning f).text ∈ a.lines.map (·.text) := by
  have htext : (getterSplice a.meaning f).text = a.receiver ++ a.field.name ++ "() " ++ a.field.type ++ " \x7b" := by
    rw [hf]
    simp [Splice.text_eq, getterSplice, AccessorCode.receiver, Profile.slotOf]
  rw [AccessorCode.lines, List.map_append, texts_braced, htext]
  exact List.mem_append_left _ (List.mem_append_left _ List.mem_cons_self)

theorem setterSplice_mem {a : AccessorCode} {f : FieldDecl} (hf : a.field = Profile.slotOf f) :
    (setterSplice a.meaning f).text ∈ a.lines.map (·.text) := by
  have htext : (setterSplice a.meaning f).text =
      a.receiver ++ setterName a.field.name ++ "(v " ++ a.field.type ++ ")" ++ " \x7b" := by
    rw [hf]
    simp [Splice.text_eq, setterSplice, AccessorCode.receiver, Profile.slotOf]
  rw [AccessorCode.lines, List.map_append, texts_braced, texts_braced, htext]
  exact List.mem_append_right _ (List.mem_append_left _ List.mem_cons_self)

theorem methodSplice_mem (g : MethodCode) (hresults : IsTrimmed g.decl.results) :
    (methodSplice g.meaning g.name g.decl).text ∈ g.lines.map (·.text) := by
  have htext : (methodSplice g.meaning g.name g.decl).text =
      methodHead g.meaning g.name g.decl.params g.decl.results ++ " \x7b" := by
    rw [Splice.text_eq, methodSplice, methodHead, hresults]
    split <;> simp
  simp only [MethodCode.lines, List.map_append, List.mem_append, htext]
  exact .inl (.inl (.inl (.inr List.mem_cons_self)))

/-- The initial cells of all layers. -/
theorem initSplice_mem {f : FieldDecl} (m : Text) (fields : List FieldSlot) (below : List (Text × List FieldSlot))
    (hf : Profile.slotOf f ∈ fields ∨ ∃ q ∈ below, Profile.slotOf f ∈ q.2) :
    (initSplice f).text ∈ (LayerLiteral.ofChain m fields below).lines.map (·.text) := by
  have htext : (initSplice f).text = f.name ++ ": " ++ cellInit (Profile.slotOf f) ++ "," := by
    rw [Splice.text_eq, initSplice, cellInit]
    show _ = f.name ++ ": " ++ (runtimeName ++ ".New" ++ _ ++ "[" ++ f.type ++ "](" ++ Profile.initOf f ++ ")") ++ ","
    unfold Profile.initOf
    split <;> simp
  have hcells : ∀ cells, Profile.slotOf f ∈ cells →
      (initSplice f).text ∈ (LayerLiteral.cellLines cells).map (·.text) := by
    intro cells hmem
    rw [htext]
    exact List.mem_map_of_mem (f := Line.text) (List.mem_map_of_mem (f := fun f =>
      line (f.name ++ ": " ++ cellInit f ++ ",")) hmem)
  induction below generalizing m fields with
  | nil =>
    rw [LayerLiteral.ofChain, LayerLiteral.lines, List.map_append]
    exact List.mem_append_left _ (hcells fields (by simpa using hf))
  | cons q below ih =>
    rw [LayerLiteral.ofChain, LayerLiteral.lines, List.map_append, texts_block]
    rcases hf with hf | ⟨q', hq', hf⟩
    · exact List.mem_append_left _ (hcells fields hf)
    · have hrest := ih q.1 q.2 (by
        rcases List.mem_cons.1 hq' with rfl | hq'
        · exact .inl hf
        · exact .inr ⟨q', hq', hf⟩)
      exact List.mem_append_right _ (List.mem_append_left _ (List.mem_cons_of_mem _ hrest))

/-! ### Constructor functions -/

theorem text_paramSplice (d : ConstructorDecl) {first : Text → Splice} {item : Text}
    (hfirst : ∀ rest, (first rest).text = "(" ++ item ++ rest) (rest : Text) :
    (paramSplice d first rest).text = "(" ++ andMore item d.params ++ rest := by
  unfold paramSplice andMore
  split
  · exact hfirst rest
  · have hmore := hfirst ", "
    rw [Splice.text_eq] at hmore ⊢
    rw [List.flatMap_append, ← List.append_assoc, hmore]
    simp

theorem text_headSplice (c : ConstructorCode) (name : Text) {first : Text → Splice} {item : Text}
    (hfirst : ∀ rest, (first rest).text = "(" ++ item ++ rest) (rest : Text) :
    (headSplice c.profile.ctor.decl name first (")" ++ rest)).text = c.head name item ++ rest := by
  have hparams := text_paramSplice c.profile.ctor.decl hfirst (")" ++ rest)
  rw [Splice.text_eq] at hparams
  unfold headSplice ConstructorCode.head typeParamList
  dsimp only
  split
  · rw [Splice.text_eq, List.append_assoc, hparams]
    simp
  · rw [Splice.text_eq, List.flatMap_cons]
    simp only [List.append_assoc] at hparams ⊢
    rw [hparams]

theorem exists_superCall {p : Profile} {parent : Text} (hparent : p.parent? = some parent) (object : Text) :
    ∃ call ∈ constructCalls p object, (superSplice parent object (p.ctor.decl.superArgs.getD [])).text = call.text := by
  refine ⟨⟨initName parent, [], object, [parent], p.ctor.decl.superArgs.getD []⟩, by simp [constructCalls, hparent], ?_⟩
  have hselect : selections [parent] = "." ++ parent := List.append_nil _
  rw [Splice.text_eq, superSplice, HandleCall.text, andMore]
  dsimp only
  rw [hselect]
  split <;> simp

end Code

open Code

namespace Profile

variable (p : Profile)

/-- The types of the fields of a meaning in its layer and in their accessors. -/
def fieldSplices : List Splice :=
  p.decl.fields.flatMap fun f => [typeSplice f, getterSplice p.name f, setterSplice p.name f]

/-- The type parameters, parameters and arguments of the constructor in the three functions for it. -/
def constructorSplices (arena : Text) : List Splice :=
  let d := constructorDecl p.decl
  let args := d.superArgs.getD []
  let names := p.ctor.params.names
  [headSplice d (ctorName p.name) (handleFirst p.name) (Text.ofString ")" ++ " \x7b"),
    headSplice d (initName p.name) (handleFirst p.name) (Text.ofString ")" ++ " \x7b"),
    headSplice d (newName p.name) (arenaFirst (freeName "arena" names) arena)
      (")" ++ (" " ++ p.name ++ " \x7b"))] ++
  p.parent?.toList.flatMap fun parent =>
    [superSplice parent receiverName args, superSplice parent (freeName "cto" names) args]

/-- The parameters and results of methods and overrides. -/
def methodSplices : List Splice :=
  p.decl.methods.map fun f =>
    methodSplice p.name (if f.isOverride then overrideName p.name f.name else f.name) f

/-- The places of fragments in the code of a meaning.  Its new objects have the fields of all profiles in `chain`. -/
def splices (chain : List Profile) (arena : Text) : List Splice :=
  p.fieldSplices ++ chain.flatMap (fun q => q.decl.fields.map initSplice) ++ p.constructorSplices arena ++
    p.methodSplices

variable {p}

theorem methodSplice_mem_splices (p : Profile) (chain : List Profile) (arena : Text) {f : MethodDecl}
    (hf : f ∈ p.decl.methods) (hover : f.isOverride = false) :
    methodSplice p.name f.name f ∈ p.splices chain arena := by
  refine List.mem_append_right _ (List.mem_map.2 ⟨f, hf, ?_⟩)
  rw [hover]
  rfl

theorem sound_splices (hp : p.decl.Captured) {chain : List Profile} (hchain : ∀ q ∈ chain, q.decl.Captured)
    (hparent : ∀ parent ∈ p.parent?, IsWord parent) (arena : Text) : ∀ s ∈ p.splices chain arena, s.Sound := by
  have hname : IsWord p.name := hp.name.word
  intro s hs
  simp only [splices, List.mem_append, fieldSplices, List.mem_flatMap, methodSplices, List.mem_map] at hs
  rcases hs with ((⟨f, hf, hs⟩ | ⟨q, hq, f, hf, rfl⟩) | hs) | ⟨f, hf, rfl⟩
  · have hfield := (hp.fields f hf).name.word
    simp only [List.mem_cons, List.not_mem_nil, or_false] at hs
    rcases hs with rfl | rfl | rfl
    · exact sound_typeSplice hfield
    · exact sound_getterSplice hname hfield
    · exact sound_setterSplice hname hfield
  · exact sound_initSplice ((hchain q hq).fields f hf).name.word
  · have hclose : Glue (Text.ofString ")" ++ " \x7b") := by decide
    have hresult : Glue (Text.ofString ")" ++ (" " ++ p.name ++ " \x7b")) := by
      have hparen : Glue (Text.ofString ")") := by decide
      refine hparen.append ?_ (Ended.append (by decide) _)
      simp +decide [inert_append_iff, hname.inert]
    simp only [constructorSplices, List.mem_append, List.mem_cons, List.not_mem_nil, or_false, List.mem_flatMap,
      Option.mem_toList] at hs
    rcases hs with (rfl | rfl | rfl) | ⟨parent, hmem, rfl | rfl⟩
    · exact sound_headSplice (isWord_ctorName hname) (isFirst_handleFirst hname) hclose _
    · exact sound_headSplice (isWord_initName hname) (isFirst_handleFirst hname) hclose _
    · exact sound_headSplice (isWord_newName hname) (isFirst_arenaFirst (isWord_freeName (by decide) _) arena) hresult _
    · exact sound_superSplice (hparent parent hmem) (by decide) _
    · exact sound_superSplice (hparent parent hmem) (isWord_freeName (by decide) _) _
  · have hmethod := (hp.methods f hf).name.word
    refine sound_methodSplice hname ?_ f
    split
    · exact isWord_overrideName hname hmethod
    · exact hmethod

end Profile

namespace Code.ConstructorCode

theorem splice_mem_lines {c : ConstructorCode} (hctor : c.profile.ctor.decl = Profile.constructorDecl c.profile.decl)
    {s : Splice} (hs : s ∈ c.profile.constructorSplices c.arenaType) : s.text ∈ c.lines.map (·.text) := by
  have hhandle : ∀ rest, (handleFirst c.profile.name rest).text = "(" ++ c.handleParam ++ rest := by
    intro rest
    simp [Splice.text_eq, handleFirst, ConstructorCode.handleParam]
  have harena : ∀ rest, (arenaFirst c.arenaVariable c.arenaType rest).text =
      "(" ++ (c.arenaVariable ++ " *" ++ c.arenaType) ++ rest := by
    intro rest
    have hstar : Text.ofString " *" = Text.ofString " " ++ "*" := by decide
    simp [Splice.text_eq, arenaFirst, hstar]
  have hcall : ∀ parent ∈ c.profile.parent?, ∀ object,
      (superSplice parent object (c.profile.ctor.decl.superArgs.getD [])).text ∈
        ((constructCalls c.profile object).map fun call => line call.text).map (·.text) := by
    intro parent hparent object
    obtain ⟨call, hmem, htext⟩ := exists_superCall hparent object
    rw [htext]
    exact List.mem_map_of_mem (f := Line.text) (List.mem_map_of_mem (f := fun call : HandleCall => line call.text) hmem)
  simp only [ConstructorCode.lines, List.map_append, List.mem_append]
  simp only [Profile.constructorSplices, ← hctor, List.mem_append, List.mem_cons, List.not_mem_nil, or_false,
    List.mem_flatMap, Option.mem_toList] at hs
  rcases hs with (rfl | rfl | rfl) | ⟨parent, hparent, rfl | rfl⟩
  · rw [text_headSplice c _ hhandle]
    exact .inl (.inl List.mem_cons_self)
  · rw [text_headSplice c _ hhandle, ConstructorCode.initLines, texts_braced]
    exact .inl (.inr List.mem_cons_self)
  · refine .inr (List.mem_cons_of_mem _ ?_)
    have htext := text_headSplice c (newName c.profile.name) harena (" " ++ c.profile.name ++ " \x7b")
    rw [texts_braced]
    exact List.mem_append_left _ (List.mem_cons.2 (.inl (htext.trans (by simp only [List.append_assoc]))))
  · refine .inl (.inr ?_)
    rw [ConstructorCode.initLines, texts_braced]
    exact List.mem_append_left _ (List.mem_cons_of_mem _ (hcall parent hparent receiverName))
  · refine .inr (List.mem_cons_of_mem _ ?_)
    rw [texts_braced, List.map_append, List.map_append]
    refine List.mem_append_left _ (List.mem_cons_of_mem _ (List.mem_append_left _ (List.mem_append_right _ ?_)))
    exact hcall parent hparent c.objectVariable

theorem literal_mem_lines (c : ConstructorCode) {t : Text} (ht : t ∈ c.literal.lines.map (·.text)) :
    t ∈ c.lines.map (·.text) := by
  have hallocation : t ∈ c.allocationLines.map (·.text) := by
    rw [ConstructorCode.allocationLines, texts_block]
    exact List.mem_append_left _ (List.mem_cons_of_mem _ ht)
  simp only [ConstructorCode.lines, List.map_append, List.mem_append]
  refine .inr (List.mem_cons_of_mem _ ?_)
  rw [texts_braced, List.map_append, List.map_append]
  exact List.mem_append_left _ (List.mem_cons_of_mem _ (List.mem_append_left _ (List.mem_append_left _ hallocation)))

end Code.ConstructorCode

namespace Analysis

variable {a : Analysis} {settings : Settings} {code : FileCode}

/-- Each method of a declaration has its code in the part of the meaning. -/
theorem Complete.exists_method_codeOf (ha : a.Complete) (hclean : a.findings = [])
    (hcode : a.fileCode settings = .ok code) {p root : Profile} {below : List Profile} {methods : List MethodCode}
    (hp : p ∈ a.profiles) (hpart : a.codeOf p root below methods ∈ code.meanings) {f : MethodDecl}
    (hf : f ∈ p.decl.methods) : ∃ g ∈ methods ++ p.overrides.map (overrideCode p), g.meaning = p.name ∧ g.decl = f ∧
      g.name = if f.isOverride then overrideName p.name f.name else f.name := by
  obtain ⟨-, -, hmethods, hoverrides⟩ := ha.profile_clean hclean hp
  cases hover : f.isOverride with
  | true =>
    have hmem : f ∈ p.overrides.map (·.decl) := hoverrides ▸ List.mem_filter.2 ⟨hf, hover⟩
    obtain ⟨o, ho, rfl⟩ := List.mem_map.1 hmem
    exact ⟨overrideCode p o, List.mem_append_right _ (List.mem_map_of_mem ho), rfl, rfl, rfl⟩
  | false =>
    have hmem : f ∈ p.methods.map (·.decl) := hmethods ▸ List.mem_filter.2 ⟨hf, by rw [hover]; rfl⟩
    obtain ⟨g, hg, rfl⟩ := List.mem_map.1 hmem
    obtain ⟨t, -, hg'⟩ := ha.exists_methodCode p g
    have hmem := mem_of_forall_ok (ha.mapM_methods hcode hp hpart) hg hg'
    exact ⟨_, List.mem_append_left _ hmem, rfl, rfl, rfl⟩

theorem Complete.splices_mem (ha : a.Complete) (hclean : a.findings = []) (hcaptured : a.file.Captured)
    (hcode : a.fileCode settings = .ok code) {p root : Profile} {below : List Profile} {methods : List MethodCode}
    (hp : p ∈ a.profiles) (hchain : a.Chain p.ascending (root :: below))
    (hpart : a.codeOf p root below methods ∈ code.meanings) :
    ∀ s ∈ p.splices (root :: below) a.arena, s.text ∈ (a.codeOf p root below methods).lines.map (·.text) := by
  obtain ⟨hdecl, hfields, -⟩ := ha.profile_clean hclean hp
  intro s hs
  -- the lines are those of the information, layer, handle, downcasts, accessors, constructors, methods and overrides
  simp only [MeaningCode.lines, List.map_append, List.mem_append]
  simp only [Profile.splices, List.mem_append, Profile.fieldSplices, List.mem_flatMap, Profile.methodSplices,
    List.mem_map] at hs
  rcases hs with ((⟨f, hf, hs⟩ | ⟨q, hq, f, hf, rfl⟩) | hs) | ⟨f, hf, rfl⟩
  · have hslot : Profile.slotOf f ∈ p.fields := hfields ▸ List.mem_map_of_mem hf
    let x : AccessorCode := ⟨p.name, Profile.slotOf f, pathTo p f.name⟩
    have hx : x ∈ (a.codeOf p root below methods).accessors :=
      List.mem_map_of_mem (f := fun f : FieldSlot => (⟨p.name, f, pathTo p f.name⟩ : AccessorCode)) hslot
    simp only [List.mem_cons, List.not_mem_nil, or_false] at hs
    rcases hs with rfl | rfl | rfl
    · have hmem := typeSplice_mem (l := (a.codeOf p root below methods).layer) hslot
      exact .inl (.inl (.inl (.inl (.inl (.inl (.inr hmem))))))
    · exact .inl (.inl (.inl (.inr (mem_texts_flatMap hx (getterSplice_mem (a := x) rfl)))))
    · exact .inl (.inl (.inl (.inr (mem_texts_flatMap hx (setterSplice_mem (a := x) rfl)))))
  · obtain ⟨-, hslots, -⟩ := ha.profile_clean hclean (hchain.mem_profiles hq)
    have hslot : Profile.slotOf f ∈ q.fields := hslots ▸ List.mem_map_of_mem hf
    exact .inl (.inl (.inr (ConstructorCode.literal_mem_lines _ (initSplice_mem _ _ _ (by
      rcases List.mem_cons.1 hq with rfl | hq
      · exact .inl hslot
      · exact .inr ⟨_, List.mem_map_of_mem hq, hslot⟩)))))
  · exact .inl (.inl (.inr (ConstructorCode.splice_mem_lines (ha.ctor_decl hp) hs)))
  · obtain ⟨g, hg, hmeaning, rfl, hname⟩ := ha.exists_method_codeOf hclean hcode hp hpart hf
    have hmem := methodSplice_mem g ((hcaptured.meanings _ hdecl).methods _ hf).results
    rw [hmeaning, hname] at hmem
    rcases List.mem_append.1 hg with hg | hg
    · exact .inl (.inr (mem_texts_flatMap hg hmem))
    · exact .inr (mem_texts_flatMap hg hmem)

/-- The code for a file without findings has all lines with fragments. -/
theorem exists_splice_lines {name source : Text} {result : ReadResult}
    (hread : DeclFile.read name source = .ok result) (h : ofFile settings result.file = .ok a)
    (hclean : a.findings = []) : ∃ code, a.fileCode settings = .ok code ∧ ∀ d ∈ result.file.meanings,
      ∃ p ∈ a.profiles, p.decl = d ∧ ∃ chain, a.Chain p.ascending chain ∧ ∀ s ∈ p.splices chain a.arena,
        s.text ∈ code.lines.map (·.text) ∧ s.Sound := by
  have hcaptured := DeclFile.captured_of_read hread
  obtain ⟨ha, hfile⟩ := complete_of_ofFile h
  rw [← hfile] at hcaptured ⊢
  obtain ⟨code, hcode⟩ := ha.exists_fileCode settings
  refine ⟨code, hcode, fun d hd => ?_⟩
  obtain ⟨p, hp, hdecl, -, root, below, methods, hchain, hpart⟩ := ha.exists_codeOf hclean hcode hd
  refine ⟨p, hp, hdecl, root :: below, hchain, fun s hs => ⟨?_, ?_⟩⟩
  · have hmem := mem_texts_flatMap hpart (ha.splices_mem hclean hcaptured hcode hp hchain hpart s hs)
    simp only [FileCode.lines, FileCode.restLines, List.map_append, List.mem_append]
    exact .inr (.inr hmem)
  · -- the parent is in the chain, so it has a declaration, and its name is a word like all others
    have hwords : ∀ q ∈ a.profiles, q.decl.Captured := fun q hq => hcaptured.meanings _ (ha.profile_clean hclean hq).1
    refine Profile.sound_splices (hwords p hp) (fun q hq => hwords q (hchain.mem_profiles hq)) ?_ a.arena s hs
    intro parent hparent
    have hmem : parent ∈ p.ascending := List.mem_of_mem_dropLast (List.mem_of_getLast? hparent)
    rw [← hchain.names_eq] at hmem
    obtain ⟨q, hq, rfl⟩ := List.mem_map.1 hmem
    exact (hwords q (hchain.mem_profiles hq)).name.word

/-- Fragments in generated code.  The code for a file without findings has a line for each place of a fragment.  Such a
line is read as the generator's texts and the fragments in turn exactly if each text that is put into it is complete. -/
theorem exists_splices_intact_iff {name source : Text} {result : ReadResult}
    (hread : DeclFile.read name source = .ok result) (h : ofFile settings result.file = .ok a)
    (hclean : a.findings = []) : ∃ code, a.fileCode settings = .ok code ∧ ∀ d ∈ result.file.meanings,
      ∃ p ∈ a.profiles, p.decl = d ∧ ∃ chain, a.Chain p.ascending chain ∧ ∀ s ∈ p.splices chain a.arena,
        s.text ∈ code.lines.map (·.text) ∧ (s.Intact ↔ ∀ f ∈ s.inserted, f.Complete) := by
  obtain ⟨code, hcode, hall⟩ := exists_splice_lines hread h hclean
  refine ⟨code, hcode, fun d hd => ?_⟩
  obtain ⟨p, hp, hdecl, chain, hchain, hlines⟩ := hall d hd
  refine ⟨p, hp, hdecl, chain, hchain, fun s hs => ?_⟩
  obtain ⟨hline, hsound⟩ := hlines s hs
  exact ⟨hline, Splice.intact_iff hsound⟩

/-- A method with a comment among its parameters. -/
def annotatedSource : Text :=
  "package p\nmeaning A \x7b\n\tfn size(n int /* at least */) string \x7b\n\t\treturn \"\"\n\t\x7d\n\x7d\n"

theorem splices_intact_annotated : ∃ result a code, @DeclFile.read .english "a.mt" annotatedSource = .ok result ∧
    @ofFile .english {} result.file = .ok a ∧ a.findings = [] ∧ a.fileCode {} = .ok code ∧ ∃ s : Splice,
      s.text = "func (self A) size(n int /* at least */) string \x7b" ∧ s.text ∈ code.lines.map (·.text) ∧ s.Intact ∧
      ∀ f ∈ s.inserted, f.Complete := by
  obtain ⟨result, hmem, hfile, d, hd, f, hf, hover, hintact, htext⟩ :
      ∃ result ∈ (@DeclFile.read .english "a.mt" annotatedSource).toOption, @cleanInOrder .english {} result.file ∧
      ∃ d ∈ result.file.meanings, ∃ f ∈ d.methods, f.isOverride = false ∧ (methodSplice d.name f.name f).Intact ∧
        (methodSplice d.name f.name f).text = "func (self A) size(n int /* at least */) string \x7b" := by
    decide +kernel
  have hread := DeclFile.read_of_mem hmem
  obtain ⟨a, ha, hclean⟩ := exists_clean hfile
  obtain ⟨code, hcode, hall⟩ := exists_splices_intact_iff hread ha hclean
  obtain ⟨p, -, rfl, chain, -, hsplices⟩ := hall d hd
  obtain ⟨hline, hiff⟩ := hsplices _ (Profile.methodSplice_mem_splices p chain a.arena hf hover)
  exact ⟨result, a, code, hread, ha, hclean, hcode, _, htext, hline, hintact, hiff.1 hintact⟩

/-- A result type with a comment up to the end of the line; the body begins on the next one. -/
def notedSource : Text :=
  "package p\nmeaning A \x7b\n\tfn size() int // note\n\t\x7b\n\t\treturn 1\n\t\x7d\n\x7d\n"

/-- The comment swallows the brace that opens the method. -/
theorem splice_swallowed_noted : ∃ result a code, @DeclFile.read .english "a.mt" notedSource = .ok result ∧
    result.problems = [] ∧ @ofFile .english {} result.file = .ok a ∧ a.findings = [] ∧ a.fileCode {} = .ok code ∧
      ∃ s : Splice, s.text = "func (self A) size() int // note \x7b" ∧ s.text ∈ code.lines.map (·.text) ∧
      s.inserted = [[], Text.ofString "int // note"] ∧ ¬ Sequential (s.upTo s.parts) ∧
      ∀ ts, Text.content? s.text = some ts → (.lbrace, Text.ofString "\x7b") ∉ ts := by
  obtain ⟨result, hmem, hproblems, hfile, d, hd, f, hf, hover, htext, hinserted, hnot⟩ :
      ∃ result ∈ (@DeclFile.read .english "a.mt" notedSource).toOption, result.problems = [] ∧
        @cleanInOrder .english {} result.file ∧
      ∃ d ∈ result.file.meanings, ∃ f ∈ d.methods, f.isOverride = false ∧
        (methodSplice d.name f.name f).text = "func (self A) size() int // note \x7b" ∧
        (methodSplice d.name f.name f).inserted = [[], Text.ofString "int // note"] ∧
        ¬ Sequential ((methodSplice d.name f.name f).upTo (methodSplice d.name f.name f).parts) := by decide +kernel
  have hbrace : ∀ ts ∈ Text.content? (Text.ofString "func (self A) size() int // note \x7b"),
      (TokenKind.lbrace, Text.ofString "\x7b") ∉ ts := by decide +kernel
  have hread := DeclFile.read_of_mem hmem
  obtain ⟨a, ha, hclean⟩ := exists_clean hfile
  obtain ⟨code, hcode, hall⟩ := exists_splice_lines hread ha hclean
  obtain ⟨p, -, rfl, chain, -, hlines⟩ := hall d hd
  obtain ⟨hline, -⟩ := hlines _ (Profile.methodSplice_mem_splices p chain a.arena hf hover)
  exact ⟨result, a, code, hread, hproblems, ha, hclean, hcode, _, htext, hline, hinserted, hnot, htext ▸ hbrace⟩

end Analysis

end MeaningForest

import MeaningForest.Code.File
import MeaningForest.Proofs.Excerpts
import MeaningForest.Proofs.Patterns
import MeaningForest.Proofs.Worded

/-!
# Declared names

A generated file declares types, variables and functions at the outermost level.  Its package-level names
(`Code.FileCode.packageNames`) are just those that its lines declare:

* each of them is declared by a line of the file (`Code.FileCode.exists_declares`);
* the lines declare nothing else, and each name as often as it is listed (`Code.FileCode.declaredNames_frame`), where
  the bodies that are taken from the declarations are left out (`Code.FileCode.frame`).
-/

namespace MeaningForest

open Lexeme

namespace Code

/-- A line at the outermost level declares a name: the name stands between a word for a kind of declaration and a blank
or an opening bracket. -/
def Line.Declares (l : Line) (name : Text) : Prop :=
  l.indent = 0 ∧ ∃ word ∈ ["type ", "var ", "func "].map Text.ofString, ∃ mark ∈ Text.ofString " ([", ∃ rest,
    l.text = word ++ name ++ mark :: rest

/-- The types that are declared for a layer: the layer, its variant and the tags. -/
def LayerCode.packageNames (l : LayerCode) : List Text :=
  [layerName l.meaning, variantName l.meaning, terminalName l.meaning] ++ l.submeanings.map (toLayerName l.meaning)

/-- The constructor functions of a meaning. -/
def ConstructorCode.packageNames (c : ConstructorCode) : List Text :=
  [ctorName c.profile.name, initName c.profile.name, newName c.profile.name]

/-- The package-level names that the code of a meaning declares. -/
def MeaningCode.packageNames (c : MeaningCode) : List Text :=
  [infoName c.info.name, c.handle.meaning] ++ c.layer.packageNames ++ c.constructors.packageNames

/-- The package-level names that a generated file declares. -/
def FileCode.packageNames (c : FileCode) : List Text := c.arena :: c.meanings.flatMap (·.packageNames)

theorem declares_struct (name body : Text) : (line ("type " ++ name ++ " struct" ++ body)).Declares name :=
  ⟨rfl, "type ", by simp, 0x20, by decide, "struct" ++ body, by simp [line, Text.ofString, String.utf8EncodeChar]⟩

theorem declares_interface (name body : Text) : (line ("type " ++ name ++ " interface" ++ body)).Declares name :=
  ⟨rfl, "type ", by simp, 0x20, by decide, "interface" ++ body, by simp [line, Text.ofString, String.utf8EncodeChar]⟩

theorem declares_terminal (name : Text) : (line ("type " ++ name ++ " struct\x7b\x7d")).Declares name := by
  simpa [Text.ofString, String.utf8EncodeChar] using declares_struct name "\x7b\x7d"

theorem InfoCode.exists_declares (i : InfoCode) : ∃ l ∈ i.lines, l.Declares (infoName i.name) := by
  refine ⟨_, List.mem_append_left _ (List.mem_cons_self ..), rfl, "var ", by simp, 0x20, by decide, ?_⟩
  exact ⟨"= &" ++ runtimeName ++ ".Info\x7b", by simp [line, Text.ofString, String.utf8EncodeChar]⟩

theorem HandleCode.exists_declares (h : HandleCode) : ∃ l ∈ h.lines, l.Declares h.meaning :=
  ⟨_, by simp [HandleCode.lines, braced, block], declares_struct h.meaning " \x7b"⟩

theorem LayerCode.exists_declares (l : LayerCode) {name : Text} (h : name ∈ l.packageNames) :
    ∃ x ∈ l.lines, x.Declares name := by
  simp only [packageNames, List.cons_append, List.nil_append, List.mem_cons, List.mem_map] at h
  simp only [LayerCode.lines, List.mem_append]
  rcases h with rfl | rfl | rfl | ⟨s, hs, rfl⟩
  · exact ⟨_, .inl (.inl (.inl (by simp [structLines, braced, block]))), declares_struct _ " \x7b"⟩
  · exact ⟨_, .inl (.inl (.inr (by simp [variantLines, braced, block]))), declares_interface _ " \x7b"⟩
  · exact ⟨_, .inl (.inl (.inr (by simp [variantLines]))), declares_terminal _⟩
  · refine ⟨_, .inl (.inr (List.mem_flatMap.2 ⟨s, hs, ?_⟩)), declares_struct _ " \x7b"⟩
    simp [tagLines, braced, block]

/-- After its name a constructor function has its type parameters or its parameters. -/
theorem ConstructorCode.declares_head (c : ConstructorCode) (name first rest : Text) :
    (line (c.head name first ++ rest)).Declares name := by
  unfold head
  by_cases h : Text.isBlank c.profile.ctor.decl.typeParams
  · exact ⟨rfl, "func ", by simp, 0x28, by decide, andMore first c.profile.ctor.decl.params ++ ")" ++ rest,
      by simp [line, typeParamList, h, Text.ofString, String.utf8EncodeChar]⟩
  · exact ⟨rfl, "func ", by simp, 0x5b, by decide,
      c.profile.ctor.decl.typeParams ++ "]" ++ ("(" ++ andMore first c.profile.ctor.decl.params ++ ")" ++ rest),
      by simp [line, typeParamList, h, Text.ofString, String.utf8EncodeChar]⟩

theorem ConstructorCode.exists_declares (c : ConstructorCode) {name : Text} (h : name ∈ c.packageNames) :
    ∃ l ∈ c.lines, l.Declares name := by
  simp only [packageNames, List.mem_cons, List.not_mem_nil, or_false] at h
  simp only [ConstructorCode.lines, List.mem_append]
  rcases h with rfl | rfl | rfl
  · exact ⟨_, .inl (.inl (List.mem_cons_self ..)), c.declares_head _ c.handleParam " \x7b"⟩
  · exact ⟨_, .inl (.inr (List.mem_cons_self ..)), c.declares_head _ c.handleParam " \x7b"⟩
  · refine ⟨_, .inr (List.mem_cons_of_mem _ (List.mem_cons_self ..)), ?_⟩
    rw [List.append_assoc, List.append_assoc]
    exact c.declares_head _ _ _

theorem MeaningCode.exists_declares (c : MeaningCode) {name : Text} (h : name ∈ c.packageNames) :
    ∃ l ∈ c.lines, l.Declares name := by
  simp only [packageNames, List.mem_append, List.mem_cons, List.not_mem_nil, or_false] at h
  simp only [MeaningCode.lines, List.mem_append]
  rcases h with ((rfl | rfl) | h) | h
  · obtain ⟨l, hl, hname⟩ := c.info.exists_declares
    exact ⟨l, by simp [hl], hname⟩
  · obtain ⟨l, hl, hname⟩ := c.handle.exists_declares
    exact ⟨l, by simp [hl], hname⟩
  · obtain ⟨l, hl, hname⟩ := c.layer.exists_declares h
    exact ⟨l, by simp [hl], hname⟩
  · obtain ⟨l, hl, hname⟩ := c.constructors.exists_declares h
    exact ⟨l, by simp [hl], hname⟩

theorem FileCode.declares_arena (c : FileCode) :
    (line ("type " ++ c.arena ++ " = " ++ runtimeName ++ ".Arena")).Declares c.arena :=
  ⟨rfl, "type ", by simp, 0x20, by decide, "= " ++ runtimeName ++ ".Arena",
    by simp [line, Text.ofString, String.utf8EncodeChar]⟩

/-- Every package-level name is declared by a line of the file. -/
theorem FileCode.exists_declares (c : FileCode) {name : Text} (h : name ∈ c.packageNames) :
    ∃ l ∈ c.lines, l.Declares name := by
  rcases List.mem_cons.1 h with rfl | h
  · exact ⟨_, by simp [FileCode.lines, restLines], c.declares_arena⟩
  · obtain ⟨part, hpart, hname⟩ := List.mem_flatMap.1 h
    obtain ⟨l, hl, hdeclares⟩ := part.exists_declares hname
    have hrest : l ∈ c.meanings.flatMap (·.lines) := List.mem_flatMap.2 ⟨part, hpart, hl⟩
    exact ⟨l, by simp [FileCode.lines, restLines, hrest], hdeclares⟩

/-! ### What a line declares -/

/-- The words that begin a declaration. -/
def declarators : List Text := ["type", "var", "func"].map Text.ofString

/-- The name that a line declares at the outermost level: the word after one for a kind of declaration.  At the head of
a method there is a bracket instead. -/
def Line.declared? (l : Line) : Option Text :=
  let name := ((l.text.dropWhile isWordPart).drop 1).takeWhile isWordPart
  if l.indent = 0 ∧ declarators.contains (l.text.takeWhile isWordPart) ∧ name ≠ [] then some name else none

/-- The names that lines declare. -/
def declaredNames (lines : List Line) : List Text := lines.filterMap Line.declared?

theorem Line.Declares.declared?_eq {l : Line} {name : Text} (h : l.Declares name) (hname : name.IsIdent) :
    l.declared? = some name := by
  obtain ⟨hindent, word, hword, mark, hmark, rest, htext⟩ := h
  obtain ⟨w, hw, rfl, hdeclarator⟩ : ∃ w : Text, w.IsWord ∧ word = w ++ [0x20] ∧ w ∈ declarators := by
    simp only [List.map_cons, List.map_nil, List.mem_cons, List.not_mem_nil, or_false] at hword
    rcases hword with rfl | rfl | rfl
    · exact ⟨"type", by decide, by decide, by decide⟩
    · exact ⟨"var", by decide, by decide, by decide⟩
    · exact ⟨"func", by decide, by decide, by decide⟩
  have hmarks : ∀ b ∈ Text.ofString " ([", isWordPart b = false := by decide +kernel
  have hends : Text.EndsName (mark :: rest) := ⟨mark, rfl, hmarks mark hmark⟩
  rw [List.append_assoc, List.append_assoc] at htext
  obtain ⟨hword, hrest⟩ := hw.takeWhile_append (t := [0x20] ++ (name ++ mark :: rest)) ⟨0x20, rfl, by decide⟩
  obtain ⟨htake, -⟩ := hname.word.takeWhile_append hends
  have hafter : ([0x20] ++ (name ++ mark :: rest)).drop 1 = name ++ mark :: rest := rfl
  rw [Line.declared?, htext, hword, hrest, hafter, htake]
  exact if_pos ⟨hindent, List.contains_iff_mem.2 hdeclarator, hname.nonempty⟩

theorem Line.declared?_eq_none {l : Line} (h : l.text.takeWhile isWordPart ∉ declarators) : l.declared? = none :=
  if_neg fun hdeclares => h (List.contains_iff_mem.1 hdeclares.2.1)

/-- The head of a method declares nothing at the outermost level. -/
theorem declared?_method {l : Line} (h : Text.ofString "func (" <+: l.text) : l.declared? = none := by
  obtain ⟨t, ht⟩ := h
  have hopen : Text.ofString "func (" = Text.ofString "func" ++ [0x20, 0x28] := by decide
  obtain ⟨-, hrest⟩ := (by decide : Text.IsWord "func").takeWhile_append (t := [0x20, 0x28] ++ t) ⟨0x20, rfl, by decide⟩
  rw [hopen, List.append_assoc] at ht
  rw [Line.declared?, ← ht, hrest]
  exact if_neg fun hdeclares => hdeclares.2.2 rfl

theorem declared?_of_head {l : Line} {b : UInt8} (hhead : l.text.head? = some b) (hb : isWordPart b = false) :
    l.declared? = none := by
  obtain ⟨t, ht⟩ := List.head?_eq_some_iff.1 hhead
  refine Line.declared?_eq_none ?_
  rw [ht, List.takeWhile_cons_of_neg (by simpa using hb)]
  decide

/-! ### What groups of lines declare -/

theorem declaredNames_append (ls ls' : List Line) : declaredNames (ls ++ ls') = declaredNames ls ++ declaredNames ls' :=
  List.filterMap_append

theorem declaredNames_cons (l : Line) (ls : List Line) :
    declaredNames (l :: ls) = l.declared?.toList ++ declaredNames ls := by
  rw [declaredNames, List.filterMap_cons]
  cases l.declared? <;> rfl

theorem declaredNames_flatMap {α : Type} (f : α → List Line) (l : List α) :
    declaredNames (l.flatMap f) = l.flatMap fun a => declaredNames (f a) := List.filterMap_flatMap ..

theorem declaredNames_blank : declaredNames [blank] = [] := by decide

theorem declaredNames_closing : declaredNames [line "\x7d", blank] = [] := by decide

/-- Indented lines declare nothing at the outermost level. -/
theorem declaredNames_indented (ls : List Line) : declaredNames (indented ls) = [] := by
  refine List.filterMap_eq_nil_iff.2 fun l hl => ?_
  obtain ⟨x, -, hx⟩ := List.mem_map.1 hl
  have hindent : l.indent ≠ 0 := by
    rw [← hx]
    exact Nat.succ_ne_zero x.indent
  exact if_neg fun hdeclares => hindent hdeclares.1

/-- A block declares what its first line does. -/
theorem declaredNames_block {opening closing : Text} (body : List Line) (hclosing : (line closing).declared? = none) :
    declaredNames (block opening body closing) = (line opening).declared?.toList := by
  rw [block, List.cons_append, declaredNames_cons, declaredNames_append, declaredNames_indented, declaredNames_cons,
    hclosing]
  exact List.append_nil _

theorem declaredNames_braced (opening : Text) (body : List Line) :
    declaredNames (braced opening body) = (line (opening ++ " \x7b")).declared?.toList := by
  rw [braced, declaredNames_append, declaredNames_block _ (by decide)]
  exact List.append_nil _

theorem declaredNames_docLines (doc : Text) : declaredNames (docLines doc) = [] := by
  rw [docLines]
  split
  · rfl
  · refine List.filterMap_eq_nil_iff.2 fun l hl => ?_
    obtain ⟨t, -, rfl⟩ := List.mem_map.1 hl
    have hslashes : Text.ofString "// " ++ t = [] ++ 0x2f :: ([0x2f, 0x20] ++ t) := rfl
    refine declared?_of_head (b := 0x2f) ?_ (by decide)
    rw [hslashes, Text.trimEndWhile_append_cons _ (by decide)]
    rfl

/-! ### Files without bodies -/

section

variable {m sub : Text}

theorem InfoCode.declaredNames_lines (i : InfoCode) (h : (infoName i.name).IsIdent) :
    declaredNames i.lines = [infoName i.name] := by
  have hopening : (line ("var " ++ infoName i.name ++ " = &" ++ runtimeName ++ ".Info\x7b")).Declares
      (infoName i.name) := ⟨rfl, "var ", by simp, 0x20, by decide, "= &" ++ runtimeName ++ ".Info\x7b",
        by simp [line, Text.ofString, String.utf8EncodeChar]⟩
  rw [InfoCode.lines, declaredNames_append, declaredNames_block _ (by decide), hopening.declared?_eq h]
  rfl

namespace LayerCode

variable (l : LayerCode)

theorem declaredNames_markerLines (type : Text) : declaredNames (l.markerLines type) = [] := by
  have hmethod : (line ("func (" ++ type ++ ") " ++ markerName l.meaning ++ "() \x7b\x7d")).declared? = none :=
    declared?_method (by simp only [line, List.append_assoc]; exact List.prefix_append ..)
  rw [markerLines, declaredNames_cons, hmethod]
  rfl

theorem declaredNames_lines (h : ∀ name ∈ l.packageNames, name.IsIdent) :
    declaredNames l.lines = l.packageNames := by
  obtain ⟨hlayer, hvariant, hterminal, htagNames⟩ : (layerName l.meaning).IsIdent ∧ (variantName l.meaning).IsIdent ∧
      (terminalName l.meaning).IsIdent ∧ ∀ sub ∈ l.submeanings, (toLayerName l.meaning sub).IsIdent := by
    simpa [packageNames, or_imp, forall_and] using h
  have htags : l.submeanings.flatMap (fun sub => declaredNames (l.tagLines sub)) =
      l.submeanings.map (toLayerName l.meaning) := by
    rw [List.map_eq_flatMap]
    refine List.flatMap_congr fun sub hsub => ?_
    rw [tagLines, declaredNames_append, declaredNames_braced, declaredNames_markerLines,
      (declares_struct _ " \x7b").declared?_eq (htagNames sub hsub)]
    rfl
  have hinfo : (line ("func (l *" ++ layerName l.meaning ++ ") runtimeInfo() " ++ infoType ++ " \x7b")).declared? =
      none := by
    have hopen : Text.ofString "func (l *" = Text.ofString "func (" ++ Text.ofString "l *" := by decide
    rw [hopen]
    exact declared?_method (by simp only [line, List.append_assoc]; exact List.prefix_append ..)
  rw [LayerCode.lines, declaredNames_append, declaredNames_append, declaredNames_append, structLines, variantLines,
    infoLines, declaredNames_append, declaredNames_append, declaredNames_braced, declaredNames_braced,
      declaredNames_braced,
    declaredNames_markerLines, hinfo, declaredNames_flatMap, htags, declaredNames_cons,
    (declares_struct _ " \x7b").declared?_eq hlayer, (declares_interface _ " \x7b").declared?_eq hvariant,
    (declares_terminal _).declared?_eq hterminal]
  simp [packageNames, declaredNames_blank]

end LayerCode

theorem HandleCode.declaredNames_lines (h : HandleCode) (hname : h.meaning.IsIdent) :
    declaredNames h.lines = [h.meaning] := by
  have hstruct := (declares_struct h.meaning " \x7b").declared?_eq hname
  have hinfo : declaredNames h.infoLines = [] := by
    rw [infoLines, declaredNames_cons, declaredNames_braced, declared?_of_head (b := 0x2f) rfl (by decide),
      declared?_method (by simp only [methodHead, line, List.append_assoc]; exact List.prefix_append ..)]
    rfl
  rw [lines, declaredNames_append, declaredNames_append, declaredNames_docLines, declaredNames_braced, hstruct,
    apply_ite declaredNames, hinfo]
  simp [declaredNames]

theorem DowncastCode.declaredNames_lines (d : DowncastCode) : declaredNames d.lines = [] := by
  rw [lines, declaredNames_cons, declaredNames_braced, declared?_of_head (b := 0x2f) rfl (by decide),
    declared?_method (by simp only [line, List.append_assoc]; exact List.prefix_append ..)]
  rfl

theorem AccessorCode.declaredNames_lines (x : AccessorCode) : declaredNames x.lines = [] := by
  have hmethod : ∀ t : Text, (line (x.receiver ++ t)).declared? = none := fun t =>
    declared?_method (by simp only [receiver, line, List.append_assoc]; exact List.prefix_append ..)
  rw [lines, declaredNames_append, declaredNames_braced, declaredNames_braced]
  simp only [List.append_assoc, hmethod]
  rfl

theorem bodyLines_nil : bodyLines [] = [] := if_pos (by decide +kernel)

/-- The functions for the constructor of a meaning, without its body. -/
def ConstructorCode.frame (c : ConstructorCode) : ConstructorCode :=
  let decl := { c.profile.ctor.decl with body := [] }
  { c with profile := { c.profile with ctor := { c.profile.ctor with decl } } }

theorem ConstructorCode.declaredNames_frame (c : ConstructorCode) (h : ∀ name ∈ c.packageNames, name.IsIdent) :
    declaredNames c.frame.lines = c.packageNames := by
  have hhead : ∀ name ∈ c.packageNames, ∀ first rest : Text,
      (line (c.frame.head name first ++ rest)).declared? = some name :=
    fun name hname first rest => (c.frame.declares_head name first rest).declared?_eq (h name hname)
  have hown : declaredNames c.frame.ownLines = [ctorName c.profile.name] := by
    have hopening : (line (c.frame.head (ctorName c.frame.profile.name) c.frame.handleParam ++ " \x7b")).declared? =
        some (ctorName c.profile.name) := hhead _ (List.mem_cons_self ..) _ _
    have hbody : bodyLines c.frame.profile.ctor.decl.body = [] := bodyLines_nil
    rw [ownLines, List.cons_append, declaredNames_cons, hbody, hopening, List.nil_append, declaredNames_closing]
    rfl
  have hinit : declaredNames c.frame.initLines = [initName c.profile.name] := by
    rw [initLines, declaredNames_braced]
    exact congrArg Option.toList (hhead (initName c.profile.name) (by simp [packageNames]) _ _)
  have hnew : declaredNames c.frame.newLines = [newName c.profile.name] := by
    rw [newLines, declaredNames_cons, declaredNames_braced, declared?_of_head (b := 0x2f) rfl (by decide),
      List.append_assoc, List.append_assoc]
    exact congrArg Option.toList (hhead (newName c.profile.name) (by simp [packageNames]) _ _)
  rw [lines, declaredNames_append, declaredNames_append, hown, hinit, hnew]
  rfl

/-- A method without its body. -/
def MethodCode.frame (f : MethodCode) : MethodCode := { f with decl := { f.decl with body := [] } }

theorem MethodCode.declaredNames_frame (f : MethodCode) : declaredNames f.frame.lines = [] := by
  have hhead : (line (methodHead f.meaning f.name f.decl.params f.decl.results ++ " \x7b")).declared? = none :=
    declared?_method (by simp only [methodHead, line, List.append_assoc]; exact List.prefix_append ..)
  have hbody : bodyLines f.frame.decl.body = [] := bodyLines_nil
  rw [lines, declaredNames_append, declaredNames_append, declaredNames_append, declaredNames_append,
    declaredNames_docLines, declaredNames_indented, declaredNames_closing, hbody, declaredNames_cons, frame, hhead]
  rfl

end

/-- The code of a meaning without the bodies that are taken from its declaration. -/
def MeaningCode.frame (c : MeaningCode) : MeaningCode :=
  { c with
    constructors := c.constructors.frame
    methods := c.methods.map MethodCode.frame
    overrides := c.overrides.map MethodCode.frame }

/-- A generated file without the bodies that are taken from the declarations. -/
def FileCode.frame (c : FileCode) : FileCode := { c with meanings := c.meanings.map MeaningCode.frame }

theorem MeaningCode.declaredNames_frame (c : MeaningCode) (h : ∀ name ∈ c.packageNames, name.IsIdent) :
    (declaredNames c.frame.lines).Perm c.packageNames := by
  obtain ⟨⟨⟨hinfo, hhandle⟩, hlayer⟩, hconstructors⟩ : (((infoName c.info.name).IsIdent ∧ c.handle.meaning.IsIdent) ∧
      ∀ name ∈ c.layer.packageNames, name.IsIdent) ∧ ∀ name ∈ c.constructors.packageNames, name.IsIdent := by
    simpa [packageNames, or_imp, forall_and, and_assoc] using h
  have hmethods : ∀ fs : List MethodCode, declaredNames ((fs.map MethodCode.frame).flatMap (·.lines)) = [] := by
    intro fs
    rw [declaredNames_flatMap, List.flatMap_map]
    exact List.flatMap_eq_nil_iff.2 fun f _ => f.declaredNames_frame
  have hdowncasts : c.downcasts.flatMap (fun d => declaredNames d.lines) = [] :=
    List.flatMap_eq_nil_iff.2 fun d _ => d.declaredNames_lines
  have haccessors : c.accessors.flatMap (fun x => declaredNames x.lines) = [] :=
    List.flatMap_eq_nil_iff.2 fun x _ => x.declaredNames_lines
  rw [lines, frame]
  simp only [declaredNames_append, hmethods, declaredNames_flatMap _ c.downcasts, declaredNames_flatMap _ c.accessors,
    hdowncasts, haccessors, c.info.declaredNames_lines hinfo, c.layer.declaredNames_lines hlayer,
    c.handle.declaredNames_lines hhandle, c.constructors.declaredNames_frame hconstructors, packageNames]
  rw [List.perm_iff_count]
  intro x
  simp only [List.count_append, List.count_cons, List.count_nil]
  omega

theorem MeaningCode.frame_sublist (c : MeaningCode) : c.frame.lines.Sublist c.lines := by
  have hbody : ∀ (before after : List Line) (body : Text),
      (before ++ bodyLines [] ++ after).Sublist (before ++ bodyLines body ++ after) := by
    intro before after body
    rw [bodyLines_nil]
    exact ((List.nil_sublist _).append_left before).append_right after
  have hmethods : ∀ fs : List MethodCode,
      ((fs.map MethodCode.frame).flatMap (·.lines)).Sublist (fs.flatMap (·.lines)) := by
    intro fs
    rw [List.flatMap_map]
    induction fs with
    | nil => exact List.Sublist.slnil
    | cons f fs ih =>
      rw [List.flatMap_cons, List.flatMap_cons]
      exact (hbody _ _ f.decl.body).append ih
  have hconstructors : c.constructors.frame.lines.Sublist c.constructors.lines := by
    have hown : c.constructors.frame.ownLines.Sublist c.constructors.ownLines :=
      hbody [line
        (c.constructors.head (ctorName c.constructors.profile.name) c.constructors.handleParam ++ " \x7b")] _ _
    exact (hown.append_right _).append_right _
  exact ((hconstructors.append_left _).append (hmethods c.methods)).append (hmethods c.overrides)

/-- The lines of a file without its bodies stand in the file. -/
theorem FileCode.frame_sublist (c : FileCode) : c.frame.lines.Sublist c.lines := by
  have hmeanings : ((c.meanings.map MeaningCode.frame).flatMap (·.lines)).Sublist (c.meanings.flatMap (·.lines)) := by
    rw [List.flatMap_map]
    induction c.meanings with
    | nil => exact List.Sublist.slnil
    | cons part parts ih =>
      rw [List.flatMap_cons, List.flatMap_cons]
      exact part.frame_sublist.append ih
  exact (hmeanings.append_left _).append_left _

/-- If the package-level names of a file are words, then its lines declare just these, besides what stands in bodies. -/
theorem FileCode.declaredNames_frame (c : FileCode) (h : ∀ name ∈ c.packageNames, name.IsIdent) :
    (declaredNames c.frame.lines).Perm c.packageNames := by
  obtain ⟨harena, hparts⟩ := List.forall_mem_cons.1 h
  have hmeanings : (declaredNames ((c.meanings.map MeaningCode.frame).flatMap (·.lines))).Perm
      (c.meanings.flatMap (·.packageNames)) := by
    rw [declaredNames_flatMap, List.flatMap_map]
    exact List.Perm.flatMap_left _ fun part hpart =>
      part.declaredNames_frame fun name hname => hparts name (List.mem_flatMap.2 ⟨part, hpart, hname⟩)
  have hpackage : (line ("package " ++ c.package)).declared? = none := by
    have hword : Text.ofString "package " ++ c.package = Text.ofString "package" ++ ([0x20] ++ c.package) := rfl
    obtain ⟨htake, -⟩ := (by decide : Text.IsWord "package").takeWhile_append (t := [0x20] ++ c.package)
      ⟨0x20, rfl, by decide⟩
    refine Line.declared?_eq_none ?_
    rw [line, hword, htake]
    decide
  have hhead : declaredNames c.frame.headLines = [] := by
    have hfirst : (line ("// Code generated by meantree from " ++ c.source ++ ". DO NOT EDIT.")).declared? = none :=
      declared?_of_head (b := 0x2f) rfl (by decide)
    rw [headLines, declaredNames_cons, frame, hfirst, declaredNames_cons, declaredNames_cons, hpackage,
      declaredNames_blank]
    decide
  have himports : declaredNames c.frame.importLines = [] := by
    rw [importLines, declaredNames_append, declaredNames_block _ (by decide), declaredNames_blank]
    decide
  have harenaLines : declaredNames [line ("// " ++ c.arena ++ " 持有本文件所有 meaning 的存储"),
      line ("type " ++ c.arena ++ " = " ++ runtimeName ++ ".Arena"), blank] = [c.arena] := by
    have hcomment : (line ("// " ++ c.arena ++ " 持有本文件所有 meaning 的存储")).declared? = none :=
      declared?_of_head (b := 0x2f) rfl (by decide)
    rw [declaredNames_cons, hcomment, declaredNames_cons, c.declares_arena.declared?_eq harena, declaredNames_blank]
    rfl
  have hlines : declaredNames c.frame.lines =
      c.arena :: declaredNames ((c.meanings.map MeaningCode.frame).flatMap (·.lines)) := by
    rw [lines, restLines, declaredNames_append, declaredNames_append, hhead, himports, declaredNames_append]
    exact congrArg (· ++ _) harenaLines
  rw [hlines]
  exact hmeanings.cons c.arena

end Code

end MeaningForest

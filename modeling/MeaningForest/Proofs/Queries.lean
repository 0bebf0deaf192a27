import MeaningForest.Code.Member
import MeaningForest.Proofs.Expressions

/-!
# Queries as they are printed

An object is asked for its kind by methods that look at the tags of its layers: a downcast tests one tag, and the search
for the last layer has a case for each tag.  The information that the search ends with is a variable with a literal.

* `Code.DowncastFunction.read?_lines`, `Code.SearchFunction.read?_lines`, `Code.TagStruct.read?_lines`,
  `Code.InfoLiteral.read?_lines`: they are read back from their lines if their names are words.
* `Code.DowncastCode.lines_eq`, `Code.LayerCode.infoLines_eq`, `Code.LayerCode.tagLines_eq`, `Code.InfoCode.lines_eq`:
  what is generated is printed as such.
-/

namespace MeaningForest

open Lexeme

namespace Code

open Text

/-! ### Downcasts -/

/-- What a downcast gives back: a handle of a type, with the handle of a variable inside or with none, and a flag. -/
structure Answer where
  type : Text
  argument : Text
  flag : Text
  deriving DecidableEq, Repr

namespace Answer

def text (x : Answer) : Text := weave "return " [x.type, x.argument] ["\x7b", "\x7d, "] ++ x.flag

def read? (t : Text) : Option Answer :=
  match fields? "return " ["\x7b", "\x7d, "] t with
  | some ([type, argument], flag) => some ⟨type, argument, flag⟩
  | _ => none

theorem read?_text {x : Answer} (htype : x.type.IsWord) (hargument : x.argument.IsWord) : read? x.text = some x := by
  have hfields := fields?_weave "return " [x.type, x.argument] ["\x7b", "\x7d, "] rfl (by decide)
    (by simp [htype, hargument]) x.flag
  rw [read?, text, hfields]

end Answer

/-- A method of a handle type that tests the tag of a layer, binds whether the test succeeds, and gives one answer or
the other. -/
structure DowncastFunction where
  receiver : Text
  meaning : Text
  method : Text
  result : Text
  flagType : Text
  flag : Text
  tested : Access
  condition : Text
  found : Answer
  missing : Answer
  deriving DecidableEq, Repr

namespace DowncastFunction

def head (f : DowncastFunction) : Text :=
  weave "func (" [f.receiver, f.meaning, f.method, f.result, f.flagType] [" ", ") ", "() (", ", ", ")"]

def test (f : DowncastFunction) : Text :=
  weave "if _, " [f.flag] [" := "] ++ (f.tested.text ++ weave "; " [f.condition] [" \x7b"])

def lines (f : DowncastFunction) : List Line :=
  braced f.head (block f.test [line f.found.text] "\x7d" ++ [line f.missing.text])

def read? (lines : List Line) : Option DowncastFunction := do
  let [head, test, found, _, missing, _, _] := lines | none
  let some ([receiver, meaning, method, result, flagType], [0x20, 0x7b]) :=
    fields? "func (" [" ", ") ", "() (", ", ", ")"] head.text | none
  let some ([flag], rest) := fields? "if _, " [" := "] test.text | none
  let some (tested, [.mark 0x3b, .mark 0x20, .word condition, .mark 0x20, .mark 0x7b]) :=
    Access.take? rest.pieces | none
  let found ← Answer.read? found.text
  let missing ← Answer.read? missing.text
  return ⟨receiver, meaning, method, result, flagType, flag, tested, condition, found, missing⟩

structure Worded (f : DowncastFunction) : Prop where
  head : ∀ name ∈ [f.receiver, f.meaning, f.method, f.result, f.flagType], name.IsWord
  flag : f.flag.IsWord
  tested : f.tested.Worded
  condition : IsIdent f.condition
  found : f.found.type.IsWord ∧ f.found.argument.IsWord
  missing : f.missing.type.IsWord ∧ f.missing.argument.IsWord

theorem read?_lines {f : DowncastFunction} (h : f.Worded) : read? f.lines = some f := by
  have hhead : fields? "func (" [" ", ") ", "() (", ", ", ")"] (f.head ++ Text.ofString " \x7b") =
      some ([f.receiver, f.meaning, f.method, f.result, f.flagType], [0x20, 0x7b]) :=
    fields?_of_eq rfl rfl (by decide) h.head
  have hflag : fields? "if _, " [" := "] f.test = some ([f.flag],
    f.tested.text ++ weave "; " [f.condition] [" \x7b"]) :=
    fields?_of_eq rfl rfl (by decide) (by simp [h.flag])
  have hpieces : (weave "; " [f.condition] [" \x7b"]).pieces =
      [.mark 0x3b, .mark 0x20, .word f.condition, .mark 0x20, .mark 0x7b] := by
    have htext : weave "; " [f.condition] [" \x7b"] = 0x3b :: 0x20 :: (f.condition ++ [0x20, 0x7b]) := rfl
    rw [htext, pieces_mark (by decide), pieces_mark (by decide),
      pieces_word h.condition (startsApart_cons (by decide) _)]
    rfl
  have htested := h.tested.take?_pieces (t := weave "; " [f.condition] [" \x7b"]) (startsApart_cons (by decide) _) (by
    rw [hpieces]
    rintro _ ⟨⟩
    exact ⟨by decide, by decide⟩)
  rw [hpieces] at htested
  have hlines : f.lines = [line (f.head ++ " \x7b"), ⟨f.test, 1⟩, ⟨f.found.text, 2⟩, ⟨"\x7d", 1⟩, ⟨f.missing.text, 1⟩,
      line "\x7d", blank] := rfl
  have hfound := Answer.read?_text h.found.1 h.found.2
  have hmissing := Answer.read?_text h.missing.1 h.missing.2
  rw [hlines, read?]
  simp only [line, hhead, hflag, htested, hfound, hmissing, bind, Option.bind, pure]

end DowncastFunction

/-- The method that a downcast is printed as, given the ancestry of its meaning. -/
def DowncastCode.function (d : DowncastCode) (asc : List Text) : DowncastFunction where
  receiver := receiverName
  meaning := d.meaning
  method := downcastName d.sub
  result := d.sub
  flagType := "bool"
  flag := "ok"
  tested := ⟨receiverName, Step.toCell asc.dropLast.reverse (layerTags asc) "variant" ++
    [.assert (toLayerName d.meaning d.sub)]⟩
  condition := "ok"
  found := ⟨d.sub, receiverName, "true"⟩
  missing := ⟨d.sub, [], "false"⟩

theorem DowncastCode.lines_eq {d : DowncastCode} {asc : List Text}
    (h : d.variant = ⟨rootLayer asc.dropLast.reverse, layerTags asc, "variant"⟩) : ∃ comment,
      d.lines = line comment :: (d.function asc).lines := by
  have hhead : (d.function asc).head =
      "func (" ++ receiverName ++ " " ++ d.meaning ++ ") " ++ downcastName d.sub ++ "() (" ++ d.sub ++ ", bool)" := by
    have hend : Text.ofString ", bool)" = Text.ofString ", " ++ Text.ofString "bool" ++ Text.ofString ")" := by decide
    rw [hend]
    simp [DowncastFunction.head, function, weave]
  have htest : (d.function asc).test =
      "if _, ok := " ++ d.variant.text ++ ".(" ++ toLayerName d.meaning d.sub ++ "); ok \x7b" := by
    have hfirst : Text.ofString "if _, ok := " =
        Text.ofString "if _, " ++ Text.ofString "ok" ++ Text.ofString " := " := by
      decide
    have hlast : Text.ofString "); ok \x7b" =
        [0x29] ++ (Text.ofString "; " ++ Text.ofString "ok" ++ Text.ofString " \x7b") := by
      decide
    have hopen : Text.ofString ".(" = [0x2e, 0x28] := by decide
    rw [h, CellPath.text_eq, hfirst, hlast, hopen]
    simp [DowncastFunction.test, function, weave, Access.text, Step.text]
  have hfound : (d.function asc).found.text = "return " ++ d.sub ++ "\x7b" ++ receiverName ++ "\x7d, true" := by
    have hend : Text.ofString "\x7d, true" = Text.ofString "\x7d, " ++ Text.ofString "true" := by decide
    rw [hend]
    simp [Answer.text, function, weave]
  have hmissing : (d.function asc).missing.text = "return " ++ d.sub ++ "\x7b\x7d, false" := by
    have hend : Text.ofString "\x7b\x7d, false" =
        Text.ofString "\x7b" ++ Text.ofString "\x7d, " ++ Text.ofString "false" := by
      decide
    rw [hend]
    simp [Answer.text, function, weave]
  refine ⟨_, congrArg (List.cons _) ?_⟩
  rw [DowncastFunction.lines, hhead, htest, hfound, hmissing]

/-! ### Search for the last layer -/

/-- A case of a type switch: a tag, and the expression that is returned. -/
structure SearchCase where
  tag : Text
  body : Access
  deriving DecidableEq, Repr

namespace SearchCase

def lines (c : SearchCase) : List Line :=
  line (weave "case " [c.tag] [":"]) :: indented [line (Text.ofString "return " ++ c.body.text)]

def read? (head body : Line) : Option SearchCase := do
  let some ([tag], []) := fields? "case " [":"] head.text | none
  let body ← (body.text.dropPrefix? "return ").bind Access.read?
  return ⟨tag, body⟩

structure Worded (c : SearchCase) : Prop where
  tag : c.tag.IsWord
  body : c.body.Worded

theorem Worded.read?_lines {c : SearchCase} (h : c.Worded) {head body : Line}
    (hhead : head.text = weave "case " [c.tag] [":"]) (hbody : body.text = Text.ofString "return " ++ c.body.text) :
    read? head body = some c := by
  have hfields := fields?_weave "case " [c.tag] [":"] rfl (by decide) (by simp [h.tag]) []
  rw [List.append_nil] at hfields
  rw [read?, hhead, hfields, hbody, dropPrefix?_append, Option.bind_some, h.body.read?_text]
  rfl

end SearchCase

/-- A switch over the tag of a layer: the variable that is bound to the tag, the expression for the tag, and the cases.
-/
structure TypeSwitch where
  bound : Text
  subject : Text
  field : Text
  cases : List SearchCase
  deriving DecidableEq, Repr

namespace TypeSwitch

def head (s : TypeSwitch) : Text := weave "switch " [s.bound, s.subject, s.field] [" := ", ".", ".(type) \x7b"]

def lines (s : TypeSwitch) : List Line := line s.head :: s.cases.flatMap (·.lines) ++ [line "\x7d"]

def readCases? : List Line → Option (List SearchCase)
  | [] => some []
  | [_] => none
  | head :: body :: rest => (SearchCase.read? head body).bind fun c => (readCases? rest).map (c :: ·)

def read? : List Line → Option TypeSwitch
  | [] => none
  | head :: rest => do
    let some ([bound, subject, field], []) := fields? "switch " [" := ", ".", ".(type) \x7b"] head.text | none
    let cases ← readCases? rest.dropLast
    return ⟨bound, subject, field, cases⟩

structure Worded (s : TypeSwitch) : Prop where
  head : ∀ name ∈ [s.bound, s.subject, s.field], name.IsWord
  cases : ∀ c ∈ s.cases, c.Worded

theorem readCases?_lines {cases : List SearchCase} (h : ∀ c ∈ cases, c.Worded) :
    readCases? (indented (cases.flatMap (·.lines))) = some cases := by
  induction cases with
  | nil => rfl
  | cons c cases ih =>
    obtain ⟨hc, hcases⟩ := List.forall_mem_cons.1 h
    have hsplit : indented ((c :: cases).flatMap (·.lines)) = ⟨weave "case " [c.tag] [":"], 1⟩ ::
        ⟨Text.ofString "return " ++ c.body.text, 2⟩ :: indented (cases.flatMap (·.lines)) := rfl
    rw [hsplit, readCases?, hc.read?_lines rfl rfl, ih hcases]
    rfl

theorem Worded.read?_lines {s : TypeSwitch} (h : s.Worded) : read? (indented s.lines) = some s := by
  have hfields := fields?_weave "switch " [s.bound, s.subject, s.field]
    [" := ", ".", ".(type) \x7b"] rfl (by decide) h.head []
  rw [List.append_nil] at hfields
  have hsplit : indented s.lines = ⟨s.head, 1⟩ :: (indented (s.cases.flatMap (·.lines)) ++ [⟨"\x7d", 1⟩]) := by
    simp [lines, indented, line]
  rw [hsplit, read?]
  simp only [TypeSwitch.head, hfields, List.dropLast_concat, readCases?_lines h.cases, bind, Option.bind, pure]

end TypeSwitch

/-- A method of a layer type that returns the information on the meaning of the layer, unless the switch has a case for
its tag. -/
structure SearchFunction where
  receiver : Text
  layer : Text
  method : Text
  package : Text
  result : Text
  switch : Option TypeSwitch
  information : Text
  deriving DecidableEq, Repr

namespace SearchFunction

def head (f : SearchFunction) : Text :=
  weave "func (" [f.receiver, f.layer, f.method, f.package, f.result] [" *", ") ", "() *", ".", ""]

def body (f : SearchFunction) : List Line :=
  (match f.switch with
    | none => []
    | some s => s.lines) ++ [line (Text.ofString "return " ++ f.information)]

def lines (f : SearchFunction) : List Line := braced f.head f.body

/-- Reads the head of a method, and the lines of its body but for the last one. -/
def readHead? (switch : Option TypeSwitch) (head last : Line) : Option SearchFunction := do
  let some ([receiver, layer, method, package, result], []) :=
    fields? "func (" [" *", ") ", "() *", ".", " \x7b"] head.text | none
  let information ← last.text.dropPrefix? "return "
  return ⟨receiver, layer, method, package, result, switch, information⟩

def read? : List Line → Option SearchFunction
  | [] => none
  | head :: rest =>
    rest.dropLast.dropLast.getLast?.bind fun last =>
      match rest.dropLast.dropLast.dropLast with
      | [] => readHead? none head last
      | switch => (TypeSwitch.read? switch).bind fun s => readHead? (some s) head last

structure Worded (f : SearchFunction) : Prop where
  head : ∀ name ∈ [f.receiver, f.layer, f.method, f.package, f.result], name.IsWord
  switch : ∀ s ∈ f.switch, s.Worded

theorem Worded.readHead? {f : SearchFunction} (h : f.Worded) (head last : Line) (hhead : head.text = f.head ++ " \x7b")
    (hlast : last.text = Text.ofString "return " ++ f.information) : readHead? f.switch head last = some f := by
  have hfields : fields? "func (" [" *", ") ", "() *", ".", " \x7b"] (f.head ++ Text.ofString " \x7b") =
      some ([f.receiver, f.layer, f.method, f.package, f.result], []) := by
    have hempty : Text.ofString "" = [] := rfl
    exact fields?_of_eq (by simp [SearchFunction.head, weave, hempty]) rfl (by decide) h.head
  rw [SearchFunction.readHead?, hhead, hfields, hlast]
  simp only [dropPrefix?_append, bind, Option.bind, pure]

theorem read?_lines {f : SearchFunction} (h : f.Worded) : read? f.lines = some f := by
  have hread := h.readHead? (line (f.head ++ " \x7b")) ⟨Text.ofString "return " ++ f.information, 1⟩ rfl rfl
  cases hf : f.switch with
  | none =>
    have hbody : f.lines = line (f.head ++ " \x7b") :: ([] ++ [⟨Text.ofString "return " ++ f.information, 1⟩] ++
        [line "\x7d"] ++ [blank]) := by
      rw [lines, body, hf]
      rfl
    rw [hbody, read?, List.dropLast_concat, List.dropLast_concat, List.getLast?_concat, List.dropLast_concat]
    rw [hf] at hread
    exact hread
  | some s =>
    have hbody : f.lines = line (f.head ++ " \x7b") :: (indented s.lines ++
        [⟨Text.ofString "return " ++ f.information, 1⟩] ++ [line "\x7d"] ++ [blank]) := by
      rw [lines, body, hf]
      simp [braced, block, indented, line]
    have hswitch := (h.switch s (by rw [hf]; rfl)).read?_lines
    rw [hf] at hread
    rw [hbody, read?, List.dropLast_concat, List.dropLast_concat, List.getLast?_concat, List.dropLast_concat]
    have hsplit : indented s.lines = ⟨s.head, 1⟩ :: indented (s.cases.flatMap (·.lines) ++ [line "\x7d"]) := rfl
    rw [hsplit] at hswitch ⊢
    exact (congrArg (Option.bind · _) hswitch).trans hread

end SearchFunction

namespace LayerCode

variable (l : LayerCode)

/-- The case for a submeaning, and the switch over all of them. -/
def searchCase (sub : Text) : SearchCase :=
  ⟨toLayerName l.meaning sub, ⟨"v", [.select "next", .call "runtimeInfo" []]⟩⟩

def typeSwitch : TypeSwitch := ⟨"v", "l", "variant", l.submeanings.map l.searchCase⟩

/-- The method that the search is printed as. -/
def searchFunction : SearchFunction where
  receiver := "l"
  layer := layerName l.meaning
  method := "runtimeInfo"
  package := runtimeName
  result := "Info"
  switch := if l.submeanings.isEmpty then none else some l.typeSwitch
  information := infoName l.meaning

theorem caseLines_eq (sub : Text) : l.caseLines sub = (l.searchCase sub).lines := by
  have hbody : Text.ofString "return v.next.runtimeInfo()" =
    Text.ofString "return " ++ (l.searchCase sub).body.text := by
    show _ = Text.ofString "return " ++ (⟨"v", [.select "next", .call "runtimeInfo" []]⟩ : Access).text
    decide
  rw [caseLines, SearchCase.lines, hbody]
  simp [searchCase, weave]

theorem infoLines_eq : l.infoLines = l.searchFunction.lines := by
  have hhead : l.searchFunction.head = "func (l *" ++ layerName l.meaning ++ ") runtimeInfo() " ++ infoType := by
    have hfirst : Text.ofString "func (l *" = Text.ofString "func (" ++ Text.ofString "l" ++ Text.ofString " *" := by
      decide
    have hmethod : Text.ofString ") runtimeInfo() " ++ infoType = Text.ofString ") " ++ Text.ofString "runtimeInfo" ++
        (Text.ofString "() *" ++ runtimeName ++ Text.ofString "." ++ Text.ofString "Info") := by decide
    have hempty : Text.ofString "" = [] := rfl
    rw [hfirst, List.append_assoc _ (Text.ofString ") runtimeInfo() "), hmethod]
    simp [SearchFunction.head, searchFunction, weave, hempty]
  have hswitch : l.typeSwitch.lines =
      line "switch v := l.variant.(type) \x7b" :: l.submeanings.flatMap l.caseLines ++ [line "\x7d"] := by
    have hcases : l.submeanings.flatMap l.caseLines = (l.submeanings.map l.searchCase).flatMap (·.lines) := by
      rw [List.flatMap_map]
      exact congrArg (List.flatMap · l.submeanings) (funext l.caseLines_eq)
    rw [TypeSwitch.lines, hcases]
    rfl
  rw [infoLines, SearchFunction.lines, hhead, SearchFunction.body, searchLines, ← hswitch]
  simp only [searchFunction]
  split <;> rfl

end LayerCode

/-- A type that is a structure with one field for a layer. -/
structure TagStruct where
  name : Text
  field : Text
  layer : Text
  deriving DecidableEq, Repr

namespace TagStruct

def lines (t : TagStruct) : List Line :=
  braced (weave "type " [t.name] [" struct"]) [line (weave [] [t.field] [" *"] ++ t.layer)]

def read? (lines : List Line) : Option TagStruct := do
  let [head, field, _, _] := lines | none
  let some ([name], [0x20, 0x7b]) := fields? "type " [" struct"] head.text | none
  let some ([field], layer) := fields? [] [" *"] field.text | none
  return ⟨name, field, layer⟩

theorem read?_lines {t : TagStruct} (hname : t.name.IsWord) (hfield : t.field.IsWord) : read? t.lines = some t := by
  have hhead : fields? "type " [" struct"] (weave "type " [t.name] [" struct"] ++ Text.ofString " \x7b") =
      some ([t.name], [0x20, 0x7b]) := fields?_of_eq rfl rfl (by decide) (by simp [hname])
  have hbody := fields?_weave [] [t.field] [" *"] rfl (by decide) (by simp [hfield]) t.layer
  have hlines : t.lines = [line (weave "type " [t.name] [" struct"] ++ " \x7b"),
      ⟨weave [] [t.field] [" *"] ++ t.layer, 1⟩, line "\x7d", blank] := rfl
  rw [hlines, read?]
  simp only [line, hhead, hbody, pure]

end TagStruct

/-- The tag that leads to the layer of a submeaning. -/
def LayerCode.tagStruct (l : LayerCode) (sub : Text) : TagStruct := ⟨toLayerName l.meaning sub, "next", layerName sub⟩

theorem LayerCode.tagLines_eq (l : LayerCode) (sub : Text) :
    l.tagLines sub = (l.tagStruct sub).lines ++ l.markerLines (toLayerName l.meaning sub) := by
  have hbody : Text.ofString "next *" = Text.ofString "next" ++ Text.ofString " *" := by decide
  rw [tagLines, TagStruct.lines, hbody]
  simp [tagStruct, weave]

/-! ### Information -/

/-- A variable with the address of a literal of a type of a package, which has keys with expressions for their values.
-/
structure InfoLiteral where
  var : Text
  package : Text
  type : Text
  entries : List (Text × Text)
  deriving DecidableEq, Repr

namespace InfoLiteral

def head (i : InfoLiteral) : Text := weave "var " [i.var, i.package, i.type] [" = &", ".", "\x7b"]

def entryText (e : Text × Text) : Text := weave [] [e.1] [": "] ++ (e.2 ++ [0x2c])

def lines (i : InfoLiteral) : List Line := block i.head (i.entries.map (line ∘ entryText)) "\x7d" ++ [blank]

def readPair? (l : Line) : Option (Text × Text) := do
  let some ([key], value) := fields? [] [": "] l.text | none
  if value.getLast? = some 0x2c then some (key, value.dropLast) else none

def read? : List Line → Option InfoLiteral
  | [] => none
  | head :: rest => do
    let some ([var, package, type], []) := fields? "var " [" = &", ".", "\x7b"] head.text | none
    let entries ← rest.dropLast.dropLast.mapM readPair?
    return ⟨var, package, type, entries⟩

structure Worded (i : InfoLiteral) : Prop where
  head : ∀ name ∈ [i.var, i.package, i.type], name.IsWord
  entries : ∀ e ∈ i.entries, e.1.IsWord

theorem readPair?_text {e : Text × Text} (h : e.1.IsWord) (indent : Nat) :
    readPair? ⟨entryText e, indent⟩ = some e := by
  have hfields := fields?_weave [] [e.1] [": "] rfl (by decide) (by simp [h]) (e.2 ++ [0x2c])
  simp [readPair?, entryText, hfields]

theorem read?_lines {i : InfoLiteral} (h : i.Worded) : read? i.lines = some i := by
  have hhead : fields? "var " [" = &", ".", "\x7b"] i.head = some ([i.var, i.package, i.type], []) :=
    fields?_of_eq (List.append_nil _).symm rfl (by decide) h.head
  have hentries : (indented (i.entries.map (line ∘ entryText))).mapM readPair? = some i.entries := by
    have heach := h.entries
    generalize i.entries = entries at heach
    induction entries with
    | nil => rfl
    | cons e entries ih =>
      obtain ⟨he, heach⟩ := List.forall_mem_cons.1 heach
      have hsplit : indented ((e :: entries).map (line ∘ entryText)) =
          ⟨entryText e, 1⟩ :: indented (entries.map (line ∘ entryText)) := rfl
      rw [hsplit, List.mapM_cons, readPair?_text he, ih heach]
      rfl
  have hlines : i.lines = line i.head :: (indented (i.entries.map (line ∘ entryText)) ++ [line "\x7d"] ++ [blank]) :=
    rfl
  rw [hlines, read?]
  simp only [line, List.dropLast_concat, hhead, hentries, bind, Option.bind, pure]

end InfoLiteral

/-- The literal that the information on a meaning is printed as. -/
def InfoCode.literal (i : InfoCode) : InfoLiteral where
  var := infoName i.name
  package := runtimeName
  type := "Info"
  entries := [(Text.ofString "Name", i.name.quote), (Text.ofString "Package", i.package.quote),
    (Text.ofString "FullName", i.fullName.quote)] ++ i.parent.toList.map fun p => (Text.ofString "Parent", infoName p)

theorem InfoCode.lines_eq (i : InfoCode) : i.lines = i.literal.lines := by
  have hhead : i.literal.head = "var " ++ infoName i.name ++ " = &" ++ runtimeName ++ ".Info\x7b" := by
    have hend : Text.ofString ".Info\x7b" = Text.ofString "." ++ Text.ofString "Info" ++ Text.ofString "\x7b" := by
      decide
    rw [hend]
    simp [InfoLiteral.head, literal, weave]
  have hentry : ∀ key value : Text, InfoLiteral.entryText (key, value) = key ++ ": " ++ value ++ "," := by
    intro key value
    have hcomma : Text.ofString "," = [0x2c] := by decide
    simp [InfoLiteral.entryText, weave, hcomma]
  have hkeys : Text.ofString "Name: " = Text.ofString "Name" ++ Text.ofString ": " ∧
      Text.ofString "Package: " = Text.ofString "Package" ++ Text.ofString ": " ∧
      Text.ofString "FullName: " = Text.ofString "FullName" ++ Text.ofString ": " ∧
      Text.ofString "Parent: " = Text.ofString "Parent" ++ Text.ofString ": " := by decide
  obtain ⟨hname, hpackage, hfull, hparent⟩ := hkeys
  rw [lines, InfoLiteral.lines, hhead, parentLines]
  cases hp : i.parent <;> simp [literal, hp, block, indented, hentry, hname, hpackage, hfull, hparent]

/-! ### Information on the object of a handle -/

/-- The expression that a root handle returns for the information on its object. -/
def runtimeInfo : Access := ⟨receiverName, [.select "root", .call "Get" [], .call "runtimeInfo" []]⟩

theorem HandleCode.infoLines_eq (h : HandleCode) : ∃ comment, h.infoLines = line comment ::
    braced (methodHead h.meaning "RuntimeInfo" [] infoType) [line (Text.ofString "return " ++ runtimeInfo.text)] := by
  have hbody : Text.ofString "return " ++ receiverName ++ Text.ofString ".root.Get().runtimeInfo()" =
      Text.ofString "return " ++ runtimeInfo.text := by decide
  exact ⟨_, by rw [infoLines, hbody]⟩

end Code

end MeaningForest

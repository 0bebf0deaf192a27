import MeaningForest.Code.Dispatch
import MeaningForest.Proofs.Paths
import MeaningForest.Proofs.Patterns

/-!
# Blocks of conditions and calls

The dispatch of a method is printed as a block of statements: conditions that narrow an object, calls of methods, and
returns.  A `Code.Block` is such a block as it stands in the generated file, with the names of the methods that it
calls; which methods these are is a question of the handle types (`Block.run`).

* `Code.Block.read?_lines`: a block is read back from its lines if its names are words.
* `Code.Dispatch.lines_eq`: a dispatch is printed as a block.
-/

namespace MeaningForest

open Lexeme

namespace Code

/-! ### Statements -/

/-- A call of a method on what a variable holds, with the text of its arguments. -/
structure MethodCall where
  receiver : Text
  method : Text
  arguments : Text
  deriving DecidableEq, Repr

/-- A statement that calls a method, or returns: what a call gives, or nothing. -/
inductive Statement where
  | call (c : MethodCall)
  | ret (c : Option MethodCall)
  deriving DecidableEq, Repr

/-- A condition: the method of a narrower handle is called on an object, and the variables are bound to the handle and
to whether there is one. -/
structure Condition where
  var : Text
  flag : Text
  object : Text
  method : Text
  deriving DecidableEq, Repr

/-- A block of statements. -/
inductive Block where
  | done
  /-- The body runs if the condition holds; then the rest. -/
  | narrow (c : Condition) (body rest : Block)
  | perform (s : Statement) (rest : Block)
  deriving DecidableEq, Repr

/-! ### Printing and reading -/

namespace MethodCall

def text (c : MethodCall) : Text := c.receiver ++ "." ++ c.method ++ "(" ++ c.arguments ++ ")"

/-- Reads a call; the last bracket closes the arguments. -/
def read? (t : Text) : Option MethodCall :=
  match Text.fields? [] [".", "("] t with
  | some ([receiver, method], rest) =>
    if rest.getLast? = some 0x29 then some ⟨receiver, method, rest.dropLast⟩ else none
  | _ => none

/-- The names of a call are words, and its arguments stand on one line. -/
structure Worded (c : MethodCall) : Prop where
  receiver : c.receiver.IsWord
  method : c.method.IsWord
  arguments : 0x0a ∉ c.arguments

variable {c : MethodCall}

theorem text_eq (c : MethodCall) :
    c.text = Text.weave [] [c.receiver, c.method] [".", "("] ++ (c.arguments ++ Text.ofString ")") := by
  simp [text, Text.weave]

theorem Worded.read?_text (h : c.Worded) : read? c.text = some c := by
  have hfields := Text.fields?_weave [] [c.receiver, c.method] [".", "("] rfl (by decide)
    (by simp [h.receiver, h.method]) (c.arguments ++ Text.ofString ")")
  rw [← text_eq] at hfields
  have hbracket : Text.ofString ")" = [0x29] := by decide
  rw [read?, hfields]
  simp [hbracket]

/-- After its receiver a call goes on with a dot. -/
theorem Worded.dropWhile_text (h : c.Worded) : ∃ u, c.text.dropWhile isWordPart = 0x2e :: u := by
  have hdot : Text.ofString "." = [0x2e] := by decide
  obtain ⟨u, hu⟩ : ∃ u, c.text = c.receiver ++ 0x2e :: u := ⟨_, by simp only [text, hdot, List.append_assoc]; rfl⟩
  exact ⟨u, hu ▸ (h.receiver.takeWhile_append ⟨0x2e, rfl, by decide⟩).2⟩

/-- A call does not begin as a statement of another kind does. -/
theorem Worded.ne_word_append (h : c.Worded) {word : Text} (hword : word.IsWord) {b : UInt8} (hb : b ≠ 0x2e)
    (hpart : isWordPart b = false) (t : Text) : c.text ≠ word ++ b :: t := by
  intro heq
  obtain ⟨u, hu⟩ := h.dropWhile_text
  rw [heq, (hword.takeWhile_append ⟨b, rfl, hpart⟩).2] at hu
  exact hb (List.cons.inj hu).1

theorem Worded.dropPrefix? (h : c.Worded) (word : Text) (hword : word.IsWord) {b : UInt8} (hb : b ≠ 0x2e)
    (hpart : isWordPart b = false) : c.text.dropPrefix? (word ++ [b]) = none := by
  rw [Option.eq_none_iff_forall_ne_some]
  intro t ht
  obtain ⟨word', hsplit, hsame⟩ := List.dropPrefix?_eq_some_iff.1 ht
  rw [eq_of_beq hsame, List.append_assoc] at hsplit
  exact h.ne_word_append hword hb hpart t hsplit

theorem Worded.feed_notMem (h : c.Worded) : 0x0a ∉ c.text := by
  have hnot : ∀ {t : Text}, t.IsWord → 0x0a ∉ t := fun ht hmem => absurd (ht _ hmem) (by decide)
  simp only [text, List.mem_append, not_or]
  exact ⟨⟨⟨⟨⟨hnot h.receiver, by decide⟩, hnot h.method⟩, by decide⟩, h.arguments⟩, by decide⟩

end MethodCall

namespace Statement

def text : Statement → Text
  | call c => c.text
  | ret none => "return"
  | ret (some c) => "return " ++ c.text

def read? (t : Text) : Option Statement :=
  if t = "return" then some (ret none)
  else
    match t.dropPrefix? "return " with
    | some u => (MethodCall.read? u).map fun c => ret (some c)
    | none => (MethodCall.read? t).map call

def Worded : Statement → Prop
  | call c => c.Worded
  | ret c => ∀ x ∈ c, x.Worded

variable {s : Statement}

theorem Worded.read?_text (h : s.Worded) : read? s.text = some s := by
  cases s with
  | call c =>
    obtain ⟨u, hu⟩ := MethodCall.Worded.dropWhile_text h
    have hne : c.text ≠ Text.ofString "return" := by
      intro heq
      rw [heq] at hu
      cases (by decide : (Text.ofString "return").dropWhile isWordPart = []).symm.trans hu
    have hprefix : c.text.dropPrefix? (Text.ofString "return ") = none :=
      MethodCall.Worded.dropPrefix? h "return" (b := 0x20) (by decide) (by decide) (by decide)
    rw [read?, text, if_neg hne, hprefix, h.read?_text]
    rfl
  | ret c =>
    cases c with
    | none => rfl
    | some c =>
      have hne : ("return " ++ c.text : Text) ≠ Text.ofString "return" := fun heq => by
        have hlength := congrArg List.length heq
        have hword : (Text.ofString "return ").length = 7 ∧ (Text.ofString "return").length = 6 := by decide
        rw [List.length_append] at hlength
        omega
      rw [read?, text, if_neg hne, Text.dropPrefix?_append]
      exact congrArg (Option.map fun c => ret (some c)) (h c rfl).read?_text

theorem Worded.feed_notMem (h : s.Worded) : 0x0a ∉ s.text := by
  cases s with
  | call c => exact MethodCall.Worded.feed_notMem h
  | ret c =>
    cases c with
    | none => decide
    | some c =>
      simp only [text, List.mem_append, not_or]
      exact ⟨by decide, (h c rfl).feed_notMem⟩

theorem Worded.lines_text (h : s.Worded) : s.text.lines = [s.text] := Text.split_of_notMem h.feed_notMem

end Statement

namespace Condition

def text (c : Condition) : Text :=
  "if " ++ c.var ++ ", " ++ c.flag ++ " := " ++ c.object ++ "." ++ c.method ++ "(); " ++ c.flag ++ " \x7b"

def read? (t : Text) : Option Condition :=
  match Text.fields? "if " [", ", " := ", ".", "(); ", " \x7b"] t with
  | some ([var, flag, object, method, tested], []) =>
    if tested = flag then some ⟨var, flag, object, method⟩ else none
  | _ => none

structure Worded (c : Condition) : Prop where
  var : c.var.IsWord
  flag : c.flag.IsWord
  object : c.object.IsWord
  method : c.method.IsWord

variable {c : Condition}

theorem Worded.read?_text (h : c.Worded) : read? c.text = some c := by
  have hfields := Text.fields?_weave "if " [c.var, c.flag, c.object, c.method, c.flag]
    [", ", " := ", ".", "(); ", " \x7b"] rfl (by decide) (by simp [h.var, h.flag, h.object, h.method]) []
  have htext : Text.weave "if " [c.var, c.flag, c.object, c.method, c.flag] [", ", " := ", ".", "(); ", " \x7b"] ++ [] =
      c.text := by simp [text, Text.weave]
  rw [htext] at hfields
  rw [read?, hfields]
  simp

theorem read?_eq_none {t : Text} (h : t.dropPrefix? "if " = none) : read? t = none := by
  rw [read?, Text.fields?, h]
  rfl

end Condition

/-- A statement is no condition and no closing brace. -/
theorem Statement.Worded.read?_condition {s : Statement} (h : s.Worded) :
    s.text ≠ Text.ofString "\x7d" ∧ Condition.read? s.text = none := by
  cases s with
  | call c =>
    refine ⟨fun heq => ?_, Condition.read?_eq_none ?_⟩
    · exact MethodCall.Worded.ne_word_append h Text.isWord_nil (b := 0x7d) (by decide) (by decide) [] heq
    · exact MethodCall.Worded.dropPrefix? h "if" (b := 0x20) (by decide) (by decide) (by decide)
  | ret c =>
    obtain ⟨u, hu⟩ : ∃ u, (Statement.ret c).text = 0x72 :: u := by
      cases c <;> exact ⟨_, rfl⟩
    rw [hu]
    exact ⟨fun heq => absurd (List.cons.inj heq).1 (by decide), Condition.read?_eq_none rfl⟩

namespace Block

def lines : Block → List Line
  | done => []
  | narrow c body rest => block c.text body.lines "\x7d" ++ rest.lines
  | perform s rest => s.text.lines.map line ++ rest.lines

/-- Reads a line in front of others: what is read of them is the block that the line belongs to, and the rest of each
block around it. -/
def push (t : Text) : List Block → Option (List Block)
  | [] => none
  | top :: below =>
    if t = "\x7d" then some (done :: top :: below)
    else
      match Condition.read? t, below with
      | some c, rest :: below => some (narrow c top rest :: below)
      | some _, [] => none
      | none, _ => (Statement.read? t).map fun s => perform s top :: below

/-- Reads a block from its lines, the last one first; how far they are indented does not matter. -/
def read? (lines : List Line) : Option Block :=
  match lines.foldr (fun l stack => stack.bind (push l.text)) (some [done]) with
  | some [b] => some b
  | _ => none

/-- The names in a block are words. -/
def Worded : Block → Prop
  | done => True
  | narrow c body rest => c.Worded ∧ body.Worded ∧ rest.Worded
  | perform s rest => s.Worded ∧ rest.Worded

theorem foldr_push_lines {b : Block} (h : b.Worded) (around : List Block) :
    b.lines.foldr (fun l stack => stack.bind (push l.text)) (some (done :: around)) = some (b :: around) := by
  induction b generalizing around with
  | done => rfl
  | narrow c body rest ihb ihr =>
    obtain ⟨hc, hbody, hrest⟩ := h
    have hclose : push (line "\x7d").text (rest :: around) = some (done :: rest :: around) := rfl
    have hne : c.text ≠ Text.ofString "\x7d" := fun heq => by
      rw [Condition.text] at heq
      cases heq
    have hindent : (indented body.lines).foldr (fun l stack => stack.bind (push l.text))
      (some (done :: rest :: around)) =
        some (body :: rest :: around) := by
      rw [indented, List.foldr_map]
      exact ihb hbody _
    rw [lines, List.foldr_append, ihr hrest, block, List.cons_append, List.foldr_cons, List.foldr_append,
      List.foldr_cons, List.foldr_nil, Option.bind_some, hclose, hindent, Option.bind_some]
    show push c.text (body :: rest :: around) = _
    simp only [push, if_neg hne, hc.read?_text]
  | perform s rest ih =>
    obtain ⟨hs, hrest⟩ := h
    obtain ⟨hne, hcondition⟩ := hs.read?_condition
    rw [lines, hs.lines_text, List.foldr_append, ih hrest, List.map_singleton, List.foldr_cons, List.foldr_nil,
      Option.bind_some]
    show push s.text (rest :: around) = _
    simp only [push, if_neg hne, hcondition, hs.read?_text, Option.map_some]

/-- A block is read back from its lines. -/
theorem read?_lines {b : Block} (h : b.Worded) : read? b.lines = some b := by
  rw [read?, foldr_push_lines h]

/-! ### Execution -/

/-- What a variable holds: a handle of the type of a meaning, whether there is one, or an argument of the method. -/
inductive Holding where
  | handle (m : Text)
  | flag
  | argument
  deriving DecidableEq, Repr

/-- What running a block does: the calls it makes, each with the type of the handle that it is made on, the text of the
statements it runs, and whether control falls through to what follows the block. -/
structure Outcome where
  calls : List (Text × MethodCall) := []
  statements : List Text := []
  falls : Bool
  deriving DecidableEq, Repr

/-- What running one block after the other does. -/
def Outcome.andThen (first next : Option Outcome) : Option Outcome :=
  first.bind fun x =>
    if x.falls then next.map fun y => ⟨x.calls ++ y.calls, x.statements ++ y.statements, y.falls⟩ else some x

/-- Runs a block on an object whose meaning has the ancestry `asc`.  `downcast?` gives what a method of a handle type
narrows to: it gives a handle exactly if that is in the ancestry.  There is no result if a variable is missing or holds
no handle, or if a method is missing. -/
def run (downcast? : Text → Text → Option Text) (asc : List Text) (scope : List (Text × Holding)) :
    Block → Option Outcome
  | done => some { falls := true }
  | narrow c body rest =>
    match scope.lookup c.object with
    | some (.handle m) =>
      match downcast? m c.method with
      | some target =>
        if c.var = c.flag then none
        else if target ∈ asc then
          Outcome.andThen (run downcast? asc ((c.var, .handle target) :: (c.flag, .flag) :: scope) body)
            (run downcast? asc scope rest)
        else run downcast? asc scope rest
      | none => none
    | _ => none
  | perform (.call c) rest =>
    match scope.lookup c.receiver with
    | some (.handle m) => Outcome.andThen (some ⟨[(m, c)], [c.text], true⟩) (run downcast? asc scope rest)
    | _ => none
  | perform (.ret none) _ => some ⟨[], [(Statement.ret none).text], false⟩
  | perform (.ret (some c)) _ =>
    match scope.lookup c.receiver with
    | some (.handle m) => some ⟨[(m, c)], [(Statement.ret (some c)).text], false⟩
    | _ => none

@[simp] theorem Outcome.andThen_falls (next : Option Outcome) :
    andThen (some { falls := true }) next = next := by
  cases next <;> rfl

theorem Outcome.andThen_assoc (x y z : Option Outcome) : andThen (andThen x y) z = andThen x (andThen y z) := by
  cases x with
  | none => rfl
  | some x =>
    simp only [andThen, Option.bind_some]
    split
    · cases y with
      | none => rfl
      | some y =>
        simp only [Option.map_some, Option.bind_some]
        split
        · cases z <;> simp
        · simp_all
    · simp_all

end Block

/-! ### Dispatch -/

end Code

namespace OverrideCall

open Code

/-- The call itself. -/
def methodCall (c : OverrideCall) : MethodCall := ⟨c.receiver, overrideName c.meaning c.method, c.arguments⟩

/-- The statements that make the call and leave the method. -/
def statements (c : OverrideCall) : List Statement :=
  if c.hasResults then [.ret (some c.methodCall)] else [.call c.methodCall, .ret none]

/-- The code of a call is the text of its statements. -/
theorem text_eq_join (c : OverrideCall) : c.text = Text.join [0x0a] (c.statements.map (·.text)) := by
  rw [text, statements]
  split
  · rfl
  · have hreturn : Text.ofString "\nreturn" = [0x0a] ++ Text.ofString "return" := by decide
    rw [hreturn, ← List.append_assoc]
    rfl

end OverrideCall

namespace Code

/-- The block of a list of statements. -/
def Block.ofStatements (ss : List Statement) : Block := ss.foldr .perform .done

theorem Block.lines_ofStatements (ss : List Statement) :
    (ofStatements ss).lines = ss.flatMap fun s => s.text.lines.map line := by
  induction ss with
  | nil => rfl
  | cons s ss ih => rw [List.flatMap_cons, ← ih]; rfl

namespace Dispatch

/-- The block that a dispatch is printed as. -/
def block : Dispatch → Block
  | done => .done
  | narrow var flag object target body rest => .narrow ⟨var, flag, object, downcastName target⟩ body.block rest.block
  | leave call => .ofStatements call.statements

theorem lines_text (call : OverrideCall) : call.text.lines = call.statements.flatMap fun s => s.text.lines := by
  have hreturn : Text.ofString "\nreturn" = 0x0a :: Text.ofString "return" := by decide
  rw [OverrideCall.text, OverrideCall.statements]
  split
  · simp [Statement.text, MethodCall.text, OverrideCall.methodCall]
  · rw [hreturn]
    exact (Text.split_append_sep ..).trans (by
      simp [Statement.text, MethodCall.text, OverrideCall.methodCall, Text.lines])

/-- A dispatch is printed as its block. -/
theorem lines_eq (d : Dispatch) : d.lines = d.block.lines := by
  induction d with
  | done => rfl
  | narrow var flag object target body rest ihb ihr =>
    rw [lines, block, Block.lines, ihb, ihr]
    rfl
  | leave call =>
    rw [lines, block, Block.lines_ofStatements, lines_text, List.map_flatMap]

end Dispatch

end Code

end MeaningForest

import MeaningForest.Text.Basic

/-!
# Lines of generated code

Generated code is a list of lines, each with its depth of indentation.  Fragments of the declarations keep their own
layout and are not indented.
-/

namespace MeaningForest.Code

/-- A line of code. -/
structure Line where
  text : Text
  indent : Nat := 0
  deriving DecidableEq, Repr

/-- A line and its end; an empty line has no indentation. -/
def Line.render (l : Line) : Text :=
  (if l.text.isEmpty then [] else List.replicate l.indent 0x09 ++ l.text) ++ [0x0a]

/-- The text of a list of lines. -/
def render (lines : List Line) : Text := lines.flatMap Line.render

/-- A line at the outermost level. -/
def line (text : Text) : Line := { text }

/-- The empty line. -/
def blank : Line := { text := [] }

/-- Lines one level deeper. -/
def indented (lines : List Line) : List Line := lines.map fun l => { l with indent := l.indent + 1 }

/-- Lines between an opening and a closing one. -/
def block (opening : Text) (body : List Line) (closing : Text) : List Line :=
  line opening :: indented body ++ [line closing]

/-- A block in braces, and the empty line after it. -/
def braced (opening : Text) (body : List Line) : List Line := block (opening ++ " \x7b") body "\x7d" ++ [blank]

/-- A doc comment. -/
def docLines (doc : Text) : List Line :=
  if doc.isEmpty then []
  else doc.lines.map fun l => line (Text.trimEndWhile (· == 0x20) ("// " ++ l))

/-- A body of host code, without blanks at the ends of its lines. -/
def bodyLines (body : Text) : List Line :=
  if body.isBlank then []
  else body.lines.map fun l => line (Text.trimEndWhile (fun b => b == 0x20 || b == 0x09 || b == 0x0d) l)

end MeaningForest.Code

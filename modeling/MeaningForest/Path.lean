import MeaningForest.Text.Basic

/-!
# Paths

A path is a text with slashes between its elements; one that starts with a slash is absolute.  This module has the
operations on paths that do not look at files, and the names of declaration files and of the files generated from them.

* `Path.reduce_names`: elements that are all names stay as they are.
-/

namespace MeaningForest.Path

/-- The byte between the elements of a path. -/
def slash : UInt8 := 0x2f

/-- The element for the directory itself. -/
def here : Text := "."

/-- The element for the directory above. -/
def above : Text := ".."

/-- Whether a path starts at the root. -/
def isAbsolute (p : Text) : Bool := p.head? == some slash

/-- Whether an element names something in a directory. -/
def isName (e : Text) : Bool := !e.isEmpty && e != here && e != above

/-! ### Short forms -/

/-- Takes one more element on a path without detours, whose elements are given in reverse. -/
def step (absolute : Bool) (done : List Text) (e : Text) : List Text :=
  if e.isEmpty || e == here then done
  else if e != above then e :: done
  else match done with
    | [] => if absolute then [] else [above]
    | last :: before => if last == above then above :: last :: before else before

/-- The elements of a path without detours. -/
def reduce (absolute : Bool) (elements : List Text) : List Text := (elements.foldl (step absolute) []).reverse

/-- The elements of a path, empty ones included. -/
def elements (p : Text) : List Text := Text.split slash p

/-- The path of elements. -/
def ofElements (absolute : Bool) (es : List Text) : Text :=
  if absolute then slash :: Text.join [slash] es
  else if es.isEmpty then here else Text.join [slash] es

/-- The shortest path that leads to the same place: without empty elements, without `.`, and with `..` only where
nothing before it can be dropped. -/
def clean (p : Text) : Text := ofElements (isAbsolute p) (reduce (isAbsolute p) (elements p))

theorem foldl_step_names (absolute : Bool) (es done : List Text) (h : ∀ e ∈ es, isName e = true) :
    es.foldl (step absolute) done = es.reverse ++ done := by
  induction es generalizing done with
  | nil => rfl
  | cons e es ih =>
    have he : isName e = true := h e (List.mem_cons_self ..)
    have hs : step absolute done e = e :: done := by
      simp only [isName, Bool.and_eq_true, Bool.not_eq_true', bne_iff_ne, ne_eq] at he
      simp [step, he.1.1, he.1.2, he.2]
    rw [List.foldl_cons, hs, ih _ fun x hx => h x (List.mem_cons_of_mem _ hx)]
    simp

theorem reduce_names (absolute : Bool) (es : List Text) (h : ∀ e ∈ es, isName e = true) :
    reduce absolute es = es := by
  simp [reduce, foldl_step_names absolute es [] h]

/-! ### Parts and joins -/

/-- The path from `a` on to `b`; an empty part is left out. -/
def join (a b : Text) : Text :=
  if !a.isEmpty then clean (a ++ slash :: b)
  else if !b.isEmpty then clean b
  else []

/-- The part of a path up to its last slash. -/
private def throughLastSlash (p : Text) : Text := (p.reverse.dropWhile (· != slash)).reverse

/-- The directory of a path. -/
def dir (p : Text) : Text := clean (throughLastSlash p)

/-- The last element of a path; slashes at its end do not count. -/
def base (p : Text) : Text :=
  if p.isEmpty then here
  else
    let trimmed := Text.trimEndWhile (· == slash) p
    if trimmed.isEmpty then [slash] else (trimmed.reverse.takeWhile (· != slash)).reverse

/-! ### Declaration files -/

/-- The endings of declaration files, in the order in which they are tried. -/
def endings : List Text := [".mt.yaml", ".mt.yml", ".mt"]

/-- Whether a path names a declaration document. -/
def isDocument (p : Text) : Bool := Text.endsWith p ".mt.yaml" || Text.endsWith p ".mt.yml"

/-- Whether a path names a declaration file of either form. -/
def isDeclaration (p : Text) : Bool := Text.endsWith p ".mt" || isDocument p

/-- The path of the file generated from a declaration file: the ending is replaced by a suffix. -/
def output (p suffix : Text) : Text :=
  match endings.find? fun e => Text.endsWith p e with
  | some e => p.take (p.length - e.length) ++ suffix
  | none => p ++ suffix

end MeaningForest.Path

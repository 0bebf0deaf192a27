import MeaningForest.Catalog.Templates

/-!
# Wording of messages

A message is worded by filling its template with arguments.  A place without an argument, an argument of the wrong
kind and an argument without a place are named in the result.  Without any arguments a template stays as it is.
-/

namespace MeaningForest

/-- An argument of a message. -/
inductive Argument where
  | text (t : Text)
  | number (n : Int)
  deriving DecidableEq, Repr

namespace Argument

instance : Coe Text Argument := ⟨text⟩
instance : Coe String Argument := ⟨fun s => text s⟩

/-- The argument itself. -/
def plain : Argument → Text
  | text t => t
  | number n => Text.ofInt n

/-- The argument after the name of its kind. -/
def described : Argument → Text
  | text t => "string=" ++ t
  | number n => "int=" ++ Text.ofInt n

/-- The argument at a place with the given letter. -/
def fill (letter : UInt8) (a : Argument) : Text :=
  match letter, a with
  | 0x76, a => a.plain
  | 0x73, text t => t
  | 0x64, number n => Text.ofInt n
  | _, a => "%!" ++ [letter] ++ "(" ++ a.described ++ ")"

end Argument

/-- Whether a byte is the letter of a place. -/
def isPlaceLetter (b : UInt8) : Bool := b == 0x73 || b == 0x64 || b == 0x76

/-- Fills the places of a template from left to right. -/
def fillTemplate : Text → List Argument → Text
  | [], [] => []
  | [], args => "%!(EXTRA " ++ Text.join ", " (args.map (·.described)) ++ ")"
  | 0x25 :: letter :: rest, args =>
    if isPlaceLetter letter then
      match args with
      | a :: args => a.fill letter ++ fillTemplate rest args
      | [] => "%!" ++ [letter] ++ "(MISSING)" ++ fillTemplate rest []
    else 0x25 :: fillTemplate (letter :: rest) args
  | b :: rest, args => b :: fillTemplate rest args
termination_by t => t.length

namespace Notice

/-- The wording of a message with arguments. -/
def word (lang : Language) (n : Notice) (args : List Argument) : Text :=
  if args.isEmpty then n.template lang else fillTemplate (n.template lang) args

/-- The wording of the message with a given key; an unknown key words itself. -/
def wordKey (lang : Language) (key : Text) (args : List Argument) : Text :=
  match ofKey? key with
  | some n => n.word lang args
  | none => key

end Notice

end MeaningForest

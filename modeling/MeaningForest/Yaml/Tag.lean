import MeaningForest.Text.Number

/-!
# Tags of YAML scalars

A plain scalar without a tag gets one by its form: null, boolean, integer, floating-point number, timestamp or text.
A scalar with one of these tags must have the form of it.
-/

namespace MeaningForest.Yaml

/-- The common tags in their short form. -/
def strTag : Text := "!!str"
def nullTag : Text := "!!null"
def boolTag : Text := "!!bool"
def intTag : Text := "!!int"
def floatTag : Text := "!!float"
def timestampTag : Text := "!!timestamp"
def seqTag : Text := "!!seq"
def mapTag : Text := "!!map"
def mergeTag : Text := "!!merge"
def binaryTag : Text := "!!binary"

/-- What the short form of common tags stands for. -/
def commonLeader : Text := "tag:yaml.org,2002:"

/-- The short form of a tag. -/
def shortTag (t : Text) : Text := if t.startsWith commonLeader then "!!" ++ t.drop commonLeader.length else t

/-- Whether a text is one of some words. -/
private def isOneOf (t : Text) (words : List String) : Bool := words.any fun w => t == Text.ofString w

def isNull (t : Text) : Bool := isOneOf t ["", "~", "null", "Null", "NULL"]
def isTrue (t : Text) : Bool := isOneOf t ["true", "True", "TRUE"]
def isFalse (t : Text) : Bool := isOneOf t ["false", "False", "FALSE"]

/-- Further words that count as booleans where a boolean is wanted. -/
def isYes (t : Text) : Bool := isOneOf t ["y", "Y", "yes", "on"]
def isNo (t : Text) : Bool := isOneOf t ["n", "N", "no", "off"]

private def isSpecialFloat (t : Text) : Bool :=
  isOneOf t [".nan", ".NaN", ".NAN", ".inf", ".Inf", ".INF", "+.inf", "+.Inf", "+.INF", "-.inf", "-.Inf", "-.INF"]

/-! ### Numbers -/

/-- The text without a sign. -/
private def unsigned (t : Text) : Text :=
  match t with
  | 0x2b :: rest => rest
  | 0x2d :: rest => rest
  | rest => rest

/-- The value of an integer without a sign: in base ten, or after a mark of its base. -/
private def magnitude? (t : Text) : Option Nat :=
  match t with
  | 0x30 :: b :: rest =>
    if b = 0x78 ∨ b = 0x58 then Text.digitsValue? 16 rest
    else if b = 0x6f ∨ b = 0x4f then Text.digitsValue? 8 rest
    else if b = 0x62 ∨ b = 0x42 then Text.digitsValue? 2 rest
    else Text.digitsValue? 8 (b :: rest)
  | t => Text.digitsValue? 10 t

/-- Whether a number is an integer of 64 bits with a sign. -/
private def isSigned64 (n : Int) : Bool := -(Nat.pow 2 63 : Int) ≤ n && n < (Nat.pow 2 63 : Int)

/-- The number that a text denotes whose sign, if it has one, comes first; `magnitude` reads what follows.  Without a
sign it has 64 bits. -/
private def signed? (magnitude : Text → Option Nat) (t : Text) : Option Int := do
  let n ← magnitude (unsigned t)
  match t with
  | 0x2d :: _ => if isSigned64 (-n) then some (-n) else none
  | 0x2b :: _ => if isSigned64 n then some n else none
  | _ => if n < Nat.pow 2 64 then some n else none

/-- The integer that a text denotes.  A sign can also stand after the mark of base two or eight. -/
private def integer? (t : Text) : Option Int :=
  signed? magnitude? t <|>
    match t with
    | 0x30 :: 0x62 :: rest => signed? (Text.digitsValue? 2) rest
    | 0x30 :: 0x6f :: rest => signed? (Text.digitsValue? 8) rest
    | _ => none

/-- The digits of a decimal before and after its point, and its exponent. -/
private def decimalParts? (t : Text) : Option (Text × Text × Int) :=
  let whole := t.takeWhile Text.isDigit
  let t := t.drop whole.length
  let (fraction, t) := match t with
    | 0x2e :: t => (t.takeWhile Text.isDigit, t.dropWhile Text.isDigit)
    | t => ([], t)
  if whole.isEmpty ∧ fraction.isEmpty then none
  else match t with
    | [] => some (whole, fraction, 0)
    | e :: t =>
      if e = 0x65 ∨ e = 0x45 then do
        let n ← Text.digitsValue? 10 (unsigned t)
        return (whole, fraction, match t with
          | 0x2d :: _ => -(n : Int)
          | _ => n)
      else none

/-- Whether a text without underscores is a decimal that a double can hold. -/
private def isDecimalNumber (t : Text) : Bool :=
  match decimalParts? t with
  | some (whole, fraction, e) =>
    Text.fitsDouble ((Text.digitsValue? 10 (whole ++ fraction)).getD 0) (e - fraction.length)
  | none => false

/-! ### Timestamps -/

/-- A number of one or two digits. -/
private def shortNumber? (t : Text) : Option (Nat × Text) :=
  match t with
  | a :: b :: rest =>
    if !Text.isDigit a then none
    else if Text.isDigit b then some ((a.toNat - 0x30) * 10 + (b.toNat - 0x30), rest)
    else some (a.toNat - 0x30, b :: rest)
  | [a] => if Text.isDigit a then some (a.toNat - 0x30, []) else none
  | [] => none

/-- The rest of a text after a byte. -/
private def after? (b : UInt8) : Text → Option Text
  | a :: rest => if a = b then some rest else none
  | [] => none

/-- Moves over a fraction of a second, after a point or a comma. -/
private def dropFraction (t : Text) : Text :=
  match t with
  | p :: d :: rest => if (p = 0x2e ∨ p = 0x2c) ∧ Text.isDigit d then rest.dropWhile Text.isDigit else t
  | _ => t

/-- A zone: the letter Z, or a sign with hours and minutes. -/
private def isZone (t : Text) : Bool :=
  match t with
  | [0x5a] => true
  | [s, a, b, 0x3a, c, d] =>
    (s == 0x2b || s == 0x2d) && [a, b, c, d].all Text.isDigit &&
      (a.toNat - 0x30) * 10 + (b.toNat - 0x30) ≤ 24 && (c.toNat - 0x30) * 10 + (d.toNat - 0x30) ≤ 60
  | _ => false

/-- Whether what follows a date completes a timestamp: nothing, or a time after `T` with a zone or after spaces
without one. -/
private def isTime (t : Text) : Bool :=
  match t with
  | [] => true
  | sep :: t =>
    let clock := do
      let (hour, t) ← shortNumber? (if sep = 0x20 then t.dropWhile (· == 0x20) else t)
      let (minute, t) ← shortNumber? (← after? 0x3a t)
      let (second, t) ← shortNumber? (← after? 0x3a t)
      if hour < 24 ∧ minute < 60 ∧ second < 60 then some (dropFraction t) else none
    match clock with
    | none => false
    | some t => if sep = 0x54 ∨ sep = 0x74 then isZone t else sep == 0x20 && t.isEmpty

/-- Whether a text is a timestamp. -/
private def isTimestamp (t : Text) : Bool :=
  let year := t.takeWhile Text.isDigit
  let parts := do
    let (month, t) ← shortNumber? (← after? 0x2d (t.drop year.length))
    let (day, t) ← shortNumber? (← after? 0x2d t)
    return (month, day, t)
  match parts with
  | none => false
  | some (month, day, t) =>
    year.length == 4 && 1 ≤ month && month ≤ 12 && 1 ≤ day &&
      day ≤ Text.daysOfMonth ((Text.digitsValue? 10 year).getD 0) month &&
      isTime t

/-! ### Resolution -/

/-- What a scalar stands for. -/
inductive ScalarValue where
  | null
  | bool (b : Bool)
  | int (n : Int)
  | float (text : Text)
  | timestamp (text : Text)
  | str (text : Text)
  deriving DecidableEq, Repr

/-- The tag of a value. -/
def ScalarValue.tag : ScalarValue → Text
  | null => nullTag
  | bool _ => boolTag
  | int _ => intTag
  | float _ => floatTag
  | timestamp _ => timestampTag
  | str _ => strTag

/-- What a plain text stands for by its form; `dated` says whether it can be a timestamp. -/
def ScalarValue.ofPlain (dated : Bool) (t : Text) : ScalarValue :=
  if isNull t then null
  else if isTrue t || isFalse t then bool (isTrue t)
  else if isSpecialFloat t then float t
  else match t with
    | [] => null
    | b :: _ =>
      let plain := t.filter (· != 0x5f)
      if b = 0x2e then
        if !Text.misplacesUnderscore Text.isDigit 0x2e t && isDecimalNumber plain then float t else str t
      else if Text.isDigit b ∨ b = 0x2b ∨ b = 0x2d then
        if dated && isTimestamp t then timestamp t
        else match integer? plain with
          | some n => int n
          | none => if isDecimalNumber (unsigned plain) then float t else str t
      else str t

/-- The tag of a plain scalar. -/
def plainTag (t : Text) : Text := (ScalarValue.ofPlain true t).tag

/-- What a text with a tag stands for: with the tags of numbers and the like it must have their form, and with any
other tag it stands for itself.  If it does not fit, the tag that would fit is given. -/
def ScalarValue.ofTagged (tag text : Text) : Except Text ScalarValue :=
  if [boolTag, intTag, floatTag, nullTag, timestampTag].contains tag then
    let value := ofPlain (tag == timestampTag) text
    if value.tag = tag then .ok value
    else match value with
      | int n => if tag = floatTag ∧ isSigned64 n then .ok (float text) else .error intTag
      | _ => .error value.tag
  else .ok (str text)

end MeaningForest.Yaml

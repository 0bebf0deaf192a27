import MeaningForest.Text.Number

/-!
# Numbers and dates in TOML documents

A number or date is cut out of the document by its bytes and then judged by its form.  Integers have 64 bits and
floating-point numbers are those that a double can hold.
-/

namespace MeaningForest.Toml

/-- A part of a document that can be a number or a date. -/
inductive Numeral where
  | integer (t : Text)
  | decimal (t : Text)
  | date (t : Text)
  deriving DecidableEq, Repr

/-! ### Cutting out -/

private def isUnderscore (b : UInt8) : Bool := b == 0x5f
private def isSign (b : UInt8) : Bool := b == 0x2b || b == 0x2d

/-- A byte after which a number is no integer: a point or the mark of an exponent. -/
private def startsFraction (b : UInt8) : Bool := b == 0x2e || b == 0x65 || b == 0x45

/-- The rest of a number whose first digits were read, and the text after it. -/
private def cutDecimal (t : Text) : Numeral × Text :=
  let whole := t.takeWhile fun b => Text.isDigit b || isUnderscore b
  let rest := t.drop whole.length
  if (rest.head?.map startsFraction).getD false then
    let fraction := rest.takeWhile fun b => Text.isDigit b || isUnderscore b || startsFraction b || isSign b
    (.decimal (whole ++ fraction), rest.drop fraction.length)
  else (.integer whole, rest)

/-- A byte of a date. -/
private def isDateByte (b : UInt8) : Bool :=
  Text.isDigit b || [0x2d, 0x3a, 0x54, 0x74, 0x20, 0x2e, 0x5a, 0x7a, 0x2b].contains b

/-- An integer of another base than ten: its digits satisfy `isDigit`. -/
private def cutBased (isDigit : UInt8 → Bool) (t : Text) : Option (Numeral × Text) :=
  let digits := (t.drop 2).takeWhile fun b => isDigit b || isUnderscore b
  if (digits.head?.map isDigit).getD false then some (.integer (t.take 2 ++ digits), t.drop (2 + digits.length))
  else none

/-- A word for a number without digits. -/
private def startsWord (t : Text) : Bool := Text.startsWith t "inf" || Text.startsWith t "nan"

/-- Puts a sign before a number. -/
private def Numeral.signed (sign : UInt8) : Numeral → Numeral
  | .integer t => .integer (sign :: t)
  | .decimal t => .decimal (sign :: t)
  | .date t => .date (sign :: t)

private def startsBased (t : Text) : Bool :=
  t.head? == some 0x30 && ((t.drop 1).head?.map fun b => b == 0x62 || b == 0x6f || b == 0x78).getD false

/-- Cuts a number or a date off the start of a text. -/
def Numeral.cut? (t : Text) : Option (Numeral × Text) :=
  if startsWord t then some (.decimal (t.take 3), t.drop 3)
  else match t with
    | [] => none
    | b :: rest =>
      if isSign b then
        if startsWord rest then some (.decimal (t.take 4), t.drop 4)
        else if startsBased rest || !(rest.head?.map Text.isDigit).getD false then none
        else
          let (n, after) := cutDecimal rest
          some (n.signed b, after)
      else if startsBased t then
        match rest with
        | 0x62 :: _ => cutBased (fun b => b == 0x30 || b == 0x31) t
        | 0x6f :: _ => cutBased (fun b => 0x30 ≤ b && b ≤ 0x37) t
        | _ => cutBased (fun b => (Text.hexValue? b).isSome) t
      else if !Text.isDigit b then none
      else
        let digits := t.takeWhile Text.isDigit
        if ((t.drop digits.length).head?.map fun b => b == 0x2d || b == 0x3a).getD false then
          let date := t.takeWhile isDateByte
          some (.date (Text.trimEndWhile (· == 0x20) date), t.drop date.length)
        else some (cutDecimal t)

/-! ### Numbers -/

/-- Every underscore follows a digit, and the last byte is a digit.  Digits are hexadecimal ones here. -/
private def underscoresOk (t : Text) : Bool :=
  let isDigit := fun b => (Text.hexValue? b).isSome
  startsWord (t.dropWhile isSign) ||
    ((t.zip (none :: t.map some)).all fun (b, before) => !isUnderscore b || (before.map isDigit).getD false) &&
      (t.getLast?.map isDigit).getD false

/-- A zero with a digit or an underscore after it. -/
private def hasLeadingZero (t : Text) : Bool :=
  match t with
  | 0x30 :: b :: _ => !(b == 0x62 || b == 0x6f || b == 0x78)
  | s :: 0x30 :: _ :: _ => isSign s
  | _ => false

/-- The number that digits denote; underscores do not count. -/
private def digitsValue (base : Nat) (t : Text) : Nat :=
  (Text.digitsValue? base (t.filter (!isUnderscore ·))).getD 0

/-- The absolute value of an integer without a sign. -/
private def magnitude : Text → Nat
  | 0x30 :: 0x62 :: digits => digitsValue 2 digits
  | 0x30 :: 0x6f :: digits => digitsValue 8 digits
  | 0x30 :: 0x78 :: digits => digitsValue 16 digits
  | digits => digitsValue 10 digits

/-- Whether a text is an integer of 64 bits. -/
def isInteger (t : Text) : Bool :=
  let n := magnitude (t.dropWhile isSign)
  underscoresOk t && !hasLeadingZero t && (n < Nat.pow 2 63 || (n == Nat.pow 2 63 && t.head? == some 0x2d))

/-- The parts of a number between its points and exponent marks, empty ones left out. -/
private def numberParts (t : Text) : List Text :=
  let pieces := Text.split 0x2e (t.map fun b => if startsFraction b then 0x2e else b)
  pieces.filter (!·.isEmpty)

/-- Every point has a digit after it. -/
private def pointsOk (t : Text) : Bool :=
  (t.zip ((t.drop 1).map some ++ [none])).all fun (b, after) => b != 0x2e || (after.map Text.isDigit).getD false

/-- Whether a text without underscores is a decimal number that a double can hold. -/
private def isDecimalNumber (t : Text) : Bool :=
  let t := match t with
    | s :: rest => if isSign s then rest else t
    | [] => t
  let whole := t.takeWhile Text.isDigit
  let t := t.drop whole.length
  let fraction := if t.head? == some 0x2e then (t.drop 1).takeWhile Text.isDigit else []
  let t := if t.head? == some 0x2e then t.drop (fraction.length + 1) else t
  let mantissa := digitsValue 10 (whole ++ fraction)
  !(whole.isEmpty && fraction.isEmpty) &&
    match t with
    | [] => Text.fitsDouble mantissa (-fraction.length)
    | _ :: exponent =>
      let negative := exponent.head? == some 0x2d
      let digits := if (exponent.head?.map isSign).getD false then exponent.drop 1 else exponent
      let n : Int := digitsValue 10 (digits.dropWhile (· == 0x30))
      startsFraction (t.headD 0) && t.head? != some 0x2e && !digits.isEmpty && digits.all Text.isDigit &&
        Text.fitsDouble mantissa ((if negative then -n else n) - fraction.length)

/-- Whether a text is a floating-point number. -/
def isFloat (t : Text) : Bool :=
  let parts := numberParts t
  parts.all underscoresOk && !((parts.head?.map hasLeadingZero).getD false) && pointsOk t &&
    (startsWord (t.dropWhile isSign) || isDecimalNumber (t.filter (!isUnderscore ·)))

/-! ### Dates -/

/-- The number of exactly `n` digits at the start of a text. -/
private def readDigits (n : Nat) (t : Text) : Option (Nat × Text) :=
  if n ≤ t.length ∧ (t.take n).all Text.isDigit then some (digitsValue 10 (t.take n), t.drop n) else none

/-- Two digits after a given byte. -/
private def readPair (mark : UInt8) (t : Text) : Option (Nat × Text) :=
  if t.head? = some mark then readDigits 2 (t.drop 1) else none

/-- The text after a day such as `2020-01-31`. -/
private def afterDay (t : Text) : Option Text := do
  let (year, t) ← readDigits 4 t
  let (month, t) ← readPair 0x2d t
  let (day, t) ← readPair 0x2d t
  if 1 ≤ month ∧ month ≤ 12 ∧ 1 ≤ day ∧ day ≤ Text.daysOfMonth year month then some t else none

/-- The text after a time such as `10:30` or `10:30:00.5`. -/
private def afterTime (t : Text) : Option Text := do
  let (hour, t) ← readDigits 2 t
  let (minute, t) ← readPair 0x3a t
  if ¬ (hour < 24 ∧ minute < 60) then none
  if t.head? ≠ some 0x3a then return t
  let (second, t) ← readPair 0x3a t
  if ¬ second < 60 then none
  let fraction := (t.drop 1).takeWhile Text.isDigit
  return if t.head? = some 0x2e ∧ fraction ≠ [] then t.drop (fraction.length + 1) else t

/-- Whether a text is a time zone such as `Z` or `+01:00`. -/
private def isZone (t : Text) : Bool :=
  t == [0x5a] ||
    match t with
    | s :: rest =>
      isSign s && ((do
        let (hour, rest) ← readDigits 2 rest
        let (minute, rest) ← readPair 0x3a rest
        return decide (hour ≤ 24 ∧ minute ≤ 60 ∧ rest = [])) == some true)
    | [] => false

/-- Whether a text is a date, a time or both; only both can have a time zone. -/
def isDate (t : Text) : Bool :=
  let t := t.map fun b => if b = 0x7a then 0x5a else if b = 0x74 ∨ b = 0x20 then 0x54 else b
  afterTime t == some [] ||
    match afterDay t with
    | none => false
    | some [] => true
    | some (0x54 :: time) =>
      match afterTime time with
      | none => false
      | some zone => zone.isEmpty || isZone zone
    | some _ => false

/-- Whether a number or date has the right form. -/
def Numeral.isValid : Numeral → Bool
  | .integer t => isInteger t
  | .decimal t => isFloat t
  | .date t => isDate t

end MeaningForest.Toml

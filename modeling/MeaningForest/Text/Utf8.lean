import MeaningForest.Text.Basic
import MeaningForest.Text.Case
import MeaningForest.Text.Letter

/-!
# Code points of a text

A text is read as a sequence of code points.  A byte that starts no well-formed UTF-8 sequence counts as the
replacement character U+FFFD and is one byte long.

* `Text.decode_shorter`: reading one code point takes at least one byte.
-/

namespace MeaningForest.Text

/-- The replacement character. -/
def replacement : Nat := 0xfffd

/-- A continuation byte. -/
def isTail (b : UInt8) : Bool := 0x80 ≤ b && b ≤ 0xbf

/-- One code point of a text. -/
structure Decoded where
  /-- The code point, or the replacement character. -/
  scalar : Nat
  /-- Whether the bytes are a well-formed sequence. -/
  valid : Bool
  /-- The number of bytes. -/
  size : Nat
  deriving DecidableEq, Repr

private def invalid : Decoded := ⟨replacement, false, 1⟩

/-- The bounds of the second byte of a sequence that starts with `a`. -/
private def secondBounds (a : UInt8) : UInt8 × UInt8 :=
  if a = 0xe0 then (0xa0, 0xbf)
  else if a = 0xed then (0x80, 0x9f)
  else if a = 0xf0 then (0x90, 0xbf)
  else if a = 0xf4 then (0x80, 0x8f)
  else (0x80, 0xbf)

private def secondOk (a b : UInt8) : Bool := (secondBounds a).1 ≤ b && b ≤ (secondBounds a).2

private def decode2 (a : UInt8) : Text → Decoded
  | b :: _ => if isTail b then ⟨(a.toNat - 0xc0) * 64 + (b.toNat - 0x80), true, 2⟩ else invalid
  | _ => invalid

private def decode3 (a : UInt8) : Text → Decoded
  | b :: c :: _ =>
    if secondOk a b && isTail c then
      ⟨((a.toNat - 0xe0) * 64 + (b.toNat - 0x80)) * 64 + (c.toNat - 0x80), true, 3⟩
    else invalid
  | _ => invalid

private def decode4 (a : UInt8) : Text → Decoded
  | b :: c :: d :: _ =>
    if secondOk a b && isTail c && isTail d then
      ⟨(((a.toNat - 0xf0) * 64 + (b.toNat - 0x80)) * 64 + (c.toNat - 0x80)) * 64 + (d.toNat - 0x80), true, 4⟩
    else invalid
  | _ => invalid

/-- The code point that starts with byte `a` and continues in `rest`. -/
def decode (a : UInt8) (rest : Text) : Decoded :=
  if a < 0x80 then ⟨a.toNat, true, 1⟩
  else if 0xc2 ≤ a ∧ a ≤ 0xdf then decode2 a rest
  else if 0xe0 ≤ a ∧ a ≤ 0xef then decode3 a rest
  else if 0xf0 ≤ a ∧ a ≤ 0xf4 then decode4 a rest
  else invalid

theorem decode_size_pos (a : UInt8) (rest : Text) : 0 < (decode a rest).size := by
  unfold decode
  repeat' split
  · simp
  · unfold decode2; split
    · split <;> simp [invalid]
    · simp [invalid]
  · unfold decode3; split
    · split <;> simp [invalid]
    · simp [invalid]
  · unfold decode4; split
    · split <;> simp [invalid]
    · simp [invalid]
  · simp [invalid]

theorem decode_size_le (a : UInt8) (rest : Text) : (decode a rest).size ≤ rest.length + 1 := by
  unfold decode
  repeat' split
  · simp
  · unfold decode2; split
    · split <;> simp [invalid]
    · simp [invalid]
  · unfold decode3; split
    · split <;> simp [invalid]
    · simp [invalid]
  · unfold decode4; split
    · split <;> simp [invalid]
    · simp [invalid]
  · simp [invalid]

/-- An ASCII byte continues no sequence. -/
theorem decode_append (a : UInt8) (rest : Text) {c : UInt8} (hc : c < 0x80) (w : Text) :
    decode a (rest ++ c :: w) = decode a rest := by
  have htail : isTail c = false := by
    have hlt : ¬ 0x80 ≤ c := UInt8.not_le.2 hc
    simp [isTail, hlt]
  have hsecond : secondOk a c = false := by
    have hle : ∀ low ∈ [(0xa0 : UInt8), 0x80, 0x90], ¬ low ≤ c := by
      intro low hlow hle
      have hc' : c.toNat < 0x80 := hc
      have hle' : low.toNat ≤ c.toNat := hle
      simp only [List.mem_cons, List.not_mem_nil, or_false] at hlow
      rcases hlow with rfl | rfl | rfl <;> simp at hle' <;> omega
    simp only [secondOk, secondBounds]
    repeat' split
    all_goals simp [hle]
  unfold decode
  repeat' split
  · rfl
  · match rest with
    | [] => simp [decode2, htail]
    | b :: rest => rfl
  · match rest with
    | [] => cases w <;> simp [decode3, hsecond]
    | [b] => simp [decode3, htail]
    | b :: d :: rest => rfl
  · match rest with
    | [] => cases w with
      | nil => rfl
      | cons d w => cases w <;> simp [decode4, hsecond]
    | [b] => cases w <;> simp [decode4, htail]
    | [b, d] => simp [decode4, htail]
    | b :: d :: e :: rest => rfl
  · rfl

/-- A well-formed sequence is read from its own bytes, whatever stands behind it. -/
theorem decode_take {a : UInt8} {rest : Text} (h : (decode a rest).valid = true) (w : Text) :
    decode a (rest.take ((decode a rest).size - 1) ++ w) = decode a rest := by
  by_cases h1 : a < 0x80
  · simp [decode, h1]
  by_cases h2 : 0xc2 ≤ a ∧ a ≤ 0xdf
  · have hdecode : ∀ r, decode a r = decode2 a r := fun r => by rw [decode, if_neg h1, if_pos h2]
    rw [hdecode] at h
    rw [hdecode, hdecode]
    match rest with
    | [] => simp [decode2, invalid] at h
    | b :: rest => cases hb : isTail b <;> simp [decode2, invalid, hb] at h ⊢
  by_cases h3 : 0xe0 ≤ a ∧ a ≤ 0xef
  · have hdecode : ∀ r, decode a r = decode3 a r := fun r => by rw [decode, if_neg h1, if_neg h2, if_pos h3]
    rw [hdecode] at h
    rw [hdecode, hdecode]
    match rest with
    | [] | [_] => simp [decode3, invalid] at h
    | b :: c :: rest => cases hok : secondOk a b && isTail c <;> simp [decode3, invalid, hok] at h ⊢
  by_cases h4 : 0xf0 ≤ a ∧ a ≤ 0xf4
  · have hdecode : ∀ r, decode a r = decode4 a r := fun r => by
      rw [decode, if_neg h1, if_neg h2, if_neg h3, if_pos h4]
    rw [hdecode] at h
    rw [hdecode, hdecode]
    match rest with
    | [] | [_] | [_, _] => simp [decode4, invalid] at h
    | b :: c :: d :: rest => cases hok : secondOk a b && isTail c && isTail d <;> simp [decode4, invalid, hok] at h ⊢
  · simp [decode, h1, h2, h3, h4, invalid] at h

/-- What is not well-formed counts as the replacement character. -/
theorem scalar_eq_replacement {a : UInt8} {rest : Text} (h : (decode a rest).valid = false) :
    (decode a rest).scalar = replacement := by
  revert h
  unfold decode
  repeat' split
  · simp
  · unfold decode2; split
    · split <;> simp [invalid]
    · simp [invalid]
  · unfold decode3; split
    · split <;> simp [invalid]
    · simp [invalid]
  · unfold decode4; split
    · split <;> simp [invalid]
    · simp [invalid]
  · simp [invalid]

/-- The first two bytes of a sequence of three or four decide that it is no shorter one. -/
private theorem le_second {a b lead : UInt8} {n : Nat} (hn : lead.toNat = n) (hlead : lead = 0xe0 ∨ lead = 0xf0)
    (ha : lead ≤ a) (h : secondOk a b) : 2 ≤ (a.toNat - n) * 64 + (b.toNat - 0x80) := by
  have ha : lead.toNat ≤ a.toNat := ha
  by_cases heq : a = lead
  · subst heq
    have hlow : (secondBounds a).1.toNat ≤ b.toNat := by
      simp only [secondOk, Bool.and_eq_true, decide_eq_true_eq] at h
      exact h.1
    have hbound : 0x90 ≤ (secondBounds a).1.toNat := by rcases hlead with rfl | rfl <;> decide
    omega
  · have hne : a.toNat ≠ lead.toNat := fun h => heq (UInt8.toNat_inj.1 h)
    omega

/-- A byte beyond ASCII starts no ASCII character. -/
theorem le_scalar_decode {a : UInt8} (h : 0x80 ≤ a) (rest : Text) : 0x80 ≤ (decode a rest).scalar := by
  have hinvalid : 0x80 ≤ invalid.scalar := by decide
  unfold decode
  rw [if_neg (UInt8.not_lt.2 h)]
  split
  · rename_i ha
    have hlow : 0xc2 ≤ a.toNat := ha.1
    unfold decode2
    split
    · split
      · show 0x80 ≤ (a.toNat - 0xc0) * 64 + _
        omega
      · exact hinvalid
    · exact hinvalid
  · split
    · rename_i ha
      unfold decode3
      split
      · split
        · rename_i b c _ hok
          have hsecond : 2 ≤ (a.toNat - 0xe0) * 64 + (b.toNat - 0x80) :=
            le_second (by decide) (.inl rfl) ha.1 (Bool.and_eq_true_iff.1 hok).1
          show 0x80 ≤ ((a.toNat - 0xe0) * 64 + _) * 64 + _
          omega
        · exact hinvalid
      · exact hinvalid
    · split
      · rename_i ha
        unfold decode4
        split
        · split
          · rename_i b c d _ hok
            have hsecond : 2 ≤ (a.toNat - 0xf0) * 64 + (b.toNat - 0x80) :=
              le_second (by decide) (.inr rfl) ha.1 (Bool.and_eq_true_iff.1 (Bool.and_eq_true_iff.1 hok).1).1
            show 0x80 ≤ (((a.toNat - 0xf0) * 64 + _) * 64 + _) * 64 + _
            omega
          · exact hinvalid
        · exact hinvalid
      · exact hinvalid

/-- The bytes after the first code point. -/
def afterFirst (a : UInt8) (rest : Text) : Text := rest.drop ((decode a rest).size - 1)

theorem decode_shorter (a : UInt8) (rest : Text) : (afterFirst a rest).length < (a :: rest).length := by
  simp only [afterFirst, List.length_drop, List.length_cons]
  omega

/-- All code points of a text. -/
def decodeAll (t : Text) : List Decoded :=
  match t with
  | [] => []
  | a :: rest => decode a rest :: decodeAll (afterFirst a rest)
termination_by t.length
decreasing_by exact decode_shorter a rest

/-- The code points of a text, faulty bytes as replacement characters. -/
def scalars (t : Text) : List Nat := (decodeAll t).map (·.scalar)

/-- Whether a text is well-formed UTF-8. -/
def isWellFormed (t : Text) : Bool := (decodeAll t).all (·.valid)

/-- Whether a number is a code point that UTF-8 can hold. -/
def isScalar (c : Nat) : Bool := c < 0xd800 || (0xe000 ≤ c && c ≤ 0x10ffff)

/-- The UTF-8 bytes of a code point; of any other number, those of the replacement character. -/
def encode (c : Nat) : Text :=
  if c < 0x80 then [c.toUInt8]
  else if c < 0x800 then [(0xc0 + c / 64).toUInt8, (0x80 + c % 64).toUInt8]
  else if !isScalar c then [0xef, 0xbf, 0xbd]
  else if c < 0x10000 then
    [(0xe0 + c / 4096).toUInt8, (0x80 + c / 64 % 64).toUInt8, (0x80 + c % 64).toUInt8]
  else
    [(0xf0 + c / 262144).toUInt8, (0x80 + c / 4096 % 64).toUInt8, (0x80 + c / 64 % 64).toUInt8,
      (0x80 + c % 64).toUInt8]

/-- The UTF-8 text of a sequence of code points. -/
def ofScalars (cs : List Nat) : Text := cs.flatMap encode

/-- Changes the first code point; faulty bytes become replacement characters. -/
private def mapFirst (f : Nat → Nat) (t : Text) : Text :=
  match scalars t with
  | [] => []
  | c :: cs => ofScalars (f c :: cs)

/-- The text with its first character in upper case. -/
def capitalize (t : Text) : Text := mapFirst upper t

theorem capitalize_of_scalars_nil {t : Text} (h : scalars t = []) : capitalize t = [] := by
  rw [capitalize, mapFirst, h]

theorem capitalize_of_scalars_cons {t : Text} {c : Nat} {cs : List Nat} (h : scalars t = c :: cs) :
    capitalize t = ofScalars (upper c :: cs) := by
  rw [capitalize, mapFirst, h]

/-- The text with its first character in lower case. -/
def uncapitalize (t : Text) : Text := mapFirst lower t

/-- Whether the first character is a capital letter. -/
def startsWithCapital : Text → Bool
  | [] => false
  | a :: rest => isCapital (decode a rest).scalar

end MeaningForest.Text

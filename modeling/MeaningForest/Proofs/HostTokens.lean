import MeaningForest.Host.Token
import MeaningForest.Proofs.Lexemes
import Mathlib.Data.Bool.AllAny
import Mathlib.Data.List.TakeWhile

/-!
# Tokens of spliced host code

Fragments of host code are read in a frame: some text before them and a closing bracket after them.

* `Host.exists_leaves`: if a fragment can be cut with a closing bracket behind it, its tokens and what it leaves to do
  are the same whatever closing text stands there.
* `Host.Frame.tokens?_eq`: in a frame its tokens stand between those of the frame, unless it ends in a line comment,
  which swallows the closing bracket.
* `Host.tokens?_ends`: the tokens of a text do not end within a line.
-/

namespace MeaningForest

open Lexeme (Apart breaks quotes)

namespace Text

theorem length_afterFirst (a : UInt8) (t : Text) :
    (afterFirst a t).length + ((decode a t).size - 1) = t.length := by
  have hpos := decode_size_pos a t
  have hle := decode_size_le a t
  rw [afterFirst, List.length_drop]
  omega

theorem ascii_of_break : ∀ b ∈ breaks, b < 0x80 := List.all_iff_forall_prop.1 (by decide)

theorem decode_apart (a : UInt8) (t : Text) {w : Text} (hw : Apart w) : decode a (t ++ w) = decode a t := by
  cases w with
  | nil => rw [List.append_nil]
  | cons c w => exact decode_append a t (ascii_of_break c (hw c rfl)) w

theorem afterFirst_apart (a : UInt8) (t : Text) {w : Text} (hw : Apart w) :
    afterFirst a (t ++ w) = afterFirst a t ++ w := by
  have hle := decode_size_le a t
  rw [afterFirst, afterFirst, decode_apart a t hw, List.drop_append_of_le_length (by omega)]

theorem decodeAll_apart (t : Text) {w : Text} (hw : Apart w) : decodeAll (t ++ w) = decodeAll t ++ decodeAll w := by
  induction h : t.length using Nat.strong_induction_on generalizing t with
  | _ n ih =>
    subst h
    cases t with
    | nil => rw [decodeAll.eq_def []]; rfl
    | cons a t =>
      rw [List.cons_append, decodeAll, decode_apart a t hw, afterFirst_apart a t hw, decodeAll.eq_def (a :: t),
        ih _ (decode_shorter a t) _ rfl]
      rfl

end Text

namespace Host

open Text

/-! ### Words and numerals -/

theorem isWordPart_break : ∀ b ∈ breaks, isWordPart b.toNat = false := List.all_iff_forall_prop.1 (by decide)

theorem decode_break {b : UInt8} (hb : b ∈ breaks) (t : Text) : decode b t = ⟨b.toNat, true, 1⟩ := by
  rw [decode, if_pos (ascii_of_break b hb)]

theorem wordLength_append (t : Text) {w : Text} (hw : Apart w) : wordLength (t ++ w) = wordLength t := by
  induction h : t.length using Nat.strong_induction_on generalizing t with
  | _ n ih =>
    subst h
    cases t with
    | nil =>
      cases w with
      | nil => rfl
      | cons c w =>
        rw [List.nil_append, wordLength, wordLength, decode_break (hw c rfl),
          if_neg (by simp [isWordPart_break c (hw c rfl)])]
    | cons a t =>
      rw [List.cons_append, wordLength, wordLength, decode_apart a t hw, afterFirst_apart a t hw,
        ih _ (decode_shorter a t) _ rfl]

theorem wordLength_le (t : Text) : wordLength t ≤ t.length := by
  induction h : t.length using Nat.strong_induction_on generalizing t with
  | _ n ih =>
    subst h
    cases t with
    | nil => simp [wordLength]
    | cons a t =>
      have hrest := ih _ (decode_shorter a t) _ rfl
      have hlength := length_afterFirst a t
      have hpos := decode_size_pos a t
      rw [wordLength, List.length_cons]
      split <;> omega

theorem takeWhile_append_apart {p : UInt8 → Bool} (hp : breaks.all (!p ·)) (t : Text) {w : Text} (hw : Apart w) :
    (t ++ w).takeWhile p = t.takeWhile p := by
  have hnone : w.takeWhile p = [] := by
    cases w with
    | nil => rfl
    | cons c w => exact List.takeWhile_cons_of_neg (by simp [hw.not_head hp])
  rw [List.takeWhile_append]
  split
  · rename_i hall
    rw [hnone, List.append_nil, List.IsPrefix.eq_of_length (List.takeWhile_prefix p) hall]
  · rfl

theorem isDigitOf_break (r : Radix) : breaks.all (!isDigitOf r ·) := by cases r <;> decide

theorem radixOf_append {b : UInt8} {t w : Text} (hw : Apart w) : radixOf (b :: t ++ w) = radixOf (b :: t) := by
  by_cases hb : b = 0x30
  · subst hb
    cases t with
    | nil =>
      cases w with
      | nil => rfl
      | cons c w =>
        have hbreaks : ∀ c ∈ breaks, lowerByte c ≠ 0x78 ∧ lowerByte c ≠ 0x6f ∧ lowerByte c ≠ 0x62 :=
          List.all_iff_forall_prop.1 (by decide)
        obtain ⟨hx, ho, hbin⟩ := hbreaks c (hw c rfl)
        simp [radixOf, hx, ho, hbin]
    | cons c t => rfl
  · have hnone : ∀ u, radixOf (b :: u) = (.decimal, 0) := by
      intro u
      unfold radixOf
      split
      · rename_i heq
        exact absurd (List.cons.inj heq).1 hb
      · rename_i heq
        exact absurd (List.cons.inj heq).1 hb
      · rfl
    rw [List.cons_append, hnone, hnone]

theorem radixOf_le (t : Text) : (radixOf t).2 ≤ t.length := by
  unfold radixOf
  split
  · repeat' split
    all_goals simp
  · simp
  · simp

/-- A part at the start of a text stays there when something is put behind. -/
theorem drop_part {part t : Text} (h : part.length ≤ t.length) (w : Text) :
    (t ++ w).drop part.length = t.drop part.length ++ w := List.drop_append_of_le_length h

theorem fractionOf_append (r : Radix) (t : Text) {w : Text} (hw : Apart w) :
    fractionOf r (t ++ w) = fractionOf r t := by
  cases t with
  | nil =>
    cases w with
    | nil => rfl
    | cons c w => exact if_neg fun h => by simpa [h, breaks] using hw c rfl
  | cons b t => rw [List.cons_append, fractionOf, fractionOf, takeWhile_append_apart (isDigitOf_break r) t hw]

theorem fractionOf_le (r : Radix) (t : Text) : (fractionOf r t).length ≤ t.length := by
  cases t with
  | nil => exact Nat.le_refl 0
  | cons b t =>
    have := (List.takeWhile_prefix (isDigitOf r) (l := t)).length_le
    rw [fractionOf]
    split
    · simpa using this
    · exact Nat.zero_le _

theorem oneOf_append {bytes : List UInt8} (hbytes : breaks.all (!bytes.contains ·)) (t : Text) {w : Text}
    (hw : Apart w) : oneOf bytes (t ++ w) = oneOf bytes t := by
  cases t with
  | nil =>
    cases w with
    | nil => rfl
    | cons c w => exact if_neg (by simpa using hw.not_head hbytes)
  | cons b t => rfl

theorem oneOf_le (bytes : List UInt8) (t : Text) : (oneOf bytes t).length ≤ t.length := by
  cases t with
  | nil => exact Nat.le_refl 0
  | cons b t =>
    rw [oneOf]
    split <;> simp

theorem signOf_append (t : Text) {w : Text} (hw : Apart w) : signOf (t ++ w) = signOf t :=
  oneOf_append (by decide) t hw

theorem signOf_le (t : Text) : (signOf t).length ≤ t.length := oneOf_le _ t

theorem exponentOf_append (t : Text) {w : Text} (hw : Apart w) : exponentOf (t ++ w) = exponentOf t := by
  cases t with
  | nil =>
    cases w with
    | nil => rfl
    | cons c w =>
      have hbreaks : ∀ c ∈ breaks, lowerByte c ≠ 0x65 ∧ lowerByte c ≠ 0x70 := List.all_iff_forall_prop.1 (by decide)
      obtain ⟨he, hp⟩ := hbreaks c (hw c rfl)
      exact if_neg fun h => h.elim he hp
  | cons b t =>
    rw [List.cons_append, exponentOf, exponentOf, signOf_append t hw, drop_part (signOf_le t),
      takeWhile_append_apart (isDigitOf_break .decimal) _ hw]

theorem exponentOf_le (t : Text) : (exponentOf t).length ≤ t.length := by
  cases t with
  | nil => exact Nat.le_refl 0
  | cons b t =>
    have hdigits := (List.takeWhile_prefix (isDigitOf .decimal) (l := t.drop (signOf t).length)).length_le
    have hsign := signOf_le t
    rw [List.length_drop] at hdigits
    rw [exponentOf]
    split
    · simp only [List.length_cons, List.length_append]
      omega
    · exact Nat.zero_le _

theorem Numeral.ofText_append {b : UInt8} {t w : Text} (hw : Apart w) :
    ofText (b :: t ++ w) = ofText (b :: t) := by
  simp only [ofText]
  rw [radixOf_append hw, List.drop_append_of_le_length (radixOf_le _),
    takeWhile_append_apart (isDigitOf_break _) _ hw, drop_part (List.takeWhile_prefix _).length_le,
    fractionOf_append _ _ hw, drop_part (fractionOf_le _ _), exponentOf_append _ hw, drop_part (exponentOf_le _),
    oneOf_append (by decide) _ hw]

theorem length_part {part t : Text} (h : part.length ≤ t.length) :
    part.length + (t.drop part.length).length = t.length := by
  rw [List.length_drop]
  omega

theorem Numeral.length_le (t : Text) : (ofText t).length ≤ t.length := by
  have hmark : (radixOf t).2 + (t.drop (radixOf t).2).length = t.length := by
    have := radixOf_le t
    rw [List.length_drop]
    omega
  simp only [ofText, length]
  -- every part is cut off from what the one before left
  generalize t.drop (radixOf t).2 = u at hmark ⊢
  have hwhole := length_part (List.takeWhile_prefix (isDigitOf (radixOf t).1) (l := u)).length_le
  generalize u.takeWhile (isDigitOf (radixOf t).1) = whole at hwhole ⊢
  generalize u.drop whole.length = v at hwhole ⊢
  have hfraction := length_part (fractionOf_le (radixOf t).1 v)
  generalize fractionOf (radixOf t).1 v = fraction at hfraction ⊢
  generalize v.drop fraction.length = x at hfraction ⊢
  have hexponent := length_part (exponentOf_le x)
  generalize exponentOf x = exponent at hexponent ⊢
  generalize x.drop exponent.length = y at hexponent ⊢
  have himaginary := oneOf_le [0x69] y
  omega

theorem numeralLength?_append {b : UInt8} {t w : Text} (hw : Apart w) :
    numeralLength? (b :: t ++ w) = numeralLength? (b :: t) := by
  have htake : (b :: t ++ w).take (Numeral.ofText (b :: t)).length = (b :: t).take (Numeral.ofText (b :: t)).length :=
    List.take_append_of_le_length (Numeral.length_le _)
  simp only [numeralLength?, Numeral.ofText_append hw, htake]

theorem numeralLength?_le {t : Text} {n : Nat} (h : numeralLength? t = some n) : n ≤ t.length := by
  simp only [numeralLength?] at h
  split at h
  · exact Option.some.inj h ▸ Numeral.length_le t
  · cases h

/-! ### Literals between quotes -/

theorem digitsValue?_eq_none (base : Nat) {digits : Text} {c : UInt8} (hc : c ∈ digits) (hnone : hexValue? c = none) :
    digitsValue? base digits = none := by
  have hfold : ∀ n, digits.foldlM (fun n b => do
      let d ← hexValue? b
      if d < base then some (n * base + d) else none) n = none := by
    induction digits with
    | nil => cases hc
    | cons b digits ih =>
      intro n
      rw [List.foldlM_cons]
      rcases List.mem_cons.1 hc with rfl | hc
      · rw [hnone]
        rfl
      · cases hb : (do let d ← hexValue? b; if d < base then some (n * base + d) else none : Option Nat) with
        | none => rfl
        | some m => exact ih hc m
  rw [digitsValue?, hfold, ite_self]

theorem hexValue?_break : ∀ c ∈ breaks, hexValue? c = none := List.all_iff_forall_prop.1 (by decide)

theorem checkEscape_append (base max k : Nat) (t : Text) {w : Text} (hw : Apart w) :
    checkEscape base max ((t ++ w).take k) k = checkEscape base max (t.take k) k := by
  by_cases hk : k ≤ t.length
  · rw [List.take_append_of_le_length hk]
  · have hshort : (t.take k).length ≠ k := by
      rw [List.length_take]
      omega
    rw [checkEscape.eq_def _ _ (t.take k), if_pos hshort]
    cases w with
    | nil => rw [List.append_nil, checkEscape, if_pos hshort]
    | cons c w =>
      -- the first byte of `w` would be a digit
      have hc : c ∈ (t ++ c :: w).take k := by
        rw [List.take_append, show k - t.length = (k - t.length - 1) + 1 by omega, List.take_succ_cons]
        simp
      rw [checkEscape, digitsValue?_eq_none base hc (hexValue?_break c (hw c rfl)), ite_self]

theorem checkEscape_le {base max k n : Nat} {t : Text} (h : checkEscape base max (t.take k) k = some n) :
    n = k ∧ k ≤ t.length := by
  rw [checkEscape] at h
  split at h
  · cases h
  · rename_i hk
    rw [List.length_take] at hk
    refine ⟨?_, by omega⟩
    split at h
    · cases h
    · split at h
      · exact (Option.some.inj h).symm
      · cases h

/-- A byte that a quote mark can be. -/
def quoteMarks : List UInt8 := [0x22, 0x27]

theorem escapeLength?_append {q : UInt8} (hq : q ∈ quoteMarks) (t : Text) {w : Text} (hw : Apart w) :
    escapeLength? q (t ++ w) = escapeLength? q t := by
  cases t with
  | nil =>
    cases w with
    | nil => rfl
    | cons c w =>
      have hbreaks : ∀ c ∈ breaks, c ∉ quoteMarks ∧ (Text.ofString "abfnrtv\\").contains c = false ∧
          isOctalDigit c = false ∧ c ≠ 0x78 ∧ c ≠ 0x75 ∧ c ≠ 0x55 := List.all_iff_forall_prop.1 (by decide)
      obtain ⟨hquote, hletter, hoctal, hx, hu, hlong⟩ := hbreaks c (hw c rfl)
      have hplain : ¬ (c = q ∨ (Text.ofString "abfnrtv\\").contains c) := by
        rintro (rfl | hmem)
        · exact hquote hq
        · exact Bool.false_ne_true (hletter.symm.trans hmem)
      rw [List.nil_append, escapeLength?, escapeLength?, if_neg hplain, if_neg (by simp [hoctal]), if_neg hx, if_neg hu,
        if_neg hlong]
  | cons b t =>
    have hoctal := checkEscape_append 8 255 3 (b :: t) hw
    rw [List.cons_append] at hoctal ⊢
    simp only [escapeLength?, checkEscape_append _ _ _ t hw, hoctal]

theorem escapeLength?_le {q : UInt8} {t : Text} {n : Nat} (h : escapeLength? q t = some n) : n ≤ t.length := by
  cases t with
  | nil => cases h
  | cons b t =>
    have hmapped : ∀ {k max}, (checkEscape 16 max (t.take k) k).map (· + 1) = some n → n ≤ (b :: t).length := by
      intro k max h
      obtain ⟨m, hm, rfl⟩ := Option.map_eq_some_iff.1 h
      obtain ⟨rfl, hle⟩ := checkEscape_le hm
      simpa using hle
    rw [escapeLength?] at h
    split at h
    · obtain rfl := Option.some.inj h
      simp
    · split at h
      · obtain ⟨rfl, hle⟩ := checkEscape_le h
        exact hle
      · split at h
        · exact hmapped h
        · split at h
          · exact hmapped h
          · split at h
            · exact hmapped h
            · cases h

theorem quotedLength?_eq_none {q : UInt8} (n : Nat) {w : Text} (hq : q ∉ w) : quotedLength? q n w = none := by
  induction n generalizing w with
  | zero => rfl
  | succ n ih =>
    cases w with
    | nil => rfl
    | cons b w =>
      have hrest : ∀ k, quotedLength? q n (w.drop k) = none :=
        fun k => ih fun h => hq (List.mem_cons_of_mem _ (List.mem_of_mem_drop h))
      have hb : b ≠ q := fun h => hq (h ▸ List.mem_cons_self ..)
      rw [quotedLength?]
      split
      · rfl
      · split
        · cases escapeLength? q w with
          | none => rfl
          | some e => simp [hrest]
        · simp [hrest]

theorem quotedLength?_append {q : UInt8} (hq : q ∈ quoteMarks) {w : Text} (hw : Apart w) (hfree : q ∉ w) (t : Text)
    {n m : Nat} (hn : t.length < n) (hm : t.length < m) :
    quotedLength? q m (t ++ w) = quotedLength? q n t := by
  induction h : t.length using Nat.strong_induction_on generalizing t n m with
  | _ k ih =>
    subst h
    obtain ⟨n, rfl⟩ := Nat.exists_eq_succ_of_ne_zero (by omega : n ≠ 0)
    obtain ⟨m, rfl⟩ := Nat.exists_eq_succ_of_ne_zero (by omega : m ≠ 0)
    cases t with
    | nil => rw [List.nil_append, quotedLength?_eq_none _ hfree, quotedLength?]
    | cons b t =>
      have hrest : ∀ k ≤ t.length, quotedLength? q m ((t ++ w).drop k) = quotedLength? q n (t.drop k) := by
        intro k hk
        rw [List.drop_append_of_le_length hk]
        simp only [List.length_cons] at hn hm
        have hlength : (t.drop k).length = t.length - k := List.length_drop
        exact ih (t.drop k).length (by rw [hlength, List.length_cons]; omega) _ (by omega) (by omega) rfl
      rw [List.cons_append, quotedLength?, quotedLength?, escapeLength?_append hq t hw, decode_apart b t hw]
      cases he : escapeLength? q t with
      | none =>
        have := decode_size_le b t
        simp [hrest ((decode b t).size - 1) (by omega)]
      | some e =>
        have := decode_size_le b t
        simp [hrest ((decode b t).size - 1) (by omega), hrest e (escapeLength?_le he)]

theorem quotedLength?_le {q : UInt8} {n : Nat} {t : Text} {bytes chars : Nat}
    (h : quotedLength? q n t = some (bytes, chars)) : bytes ≤ t.length := by
  induction n generalizing t bytes chars with
  | zero => cases h
  | succ n ih =>
    cases t with
    | nil => cases h
    | cons b t =>
      rw [quotedLength?] at h
      split at h
      · cases h
      · split at h
        · cases h
          simp
        · split at h
          · simp only [bind, Option.bind_eq_some_iff, pure] at h
            obtain ⟨e, he, ⟨bytes', chars'⟩, hrest, heq⟩ := h
            cases heq
            have hbytes := ih hrest
            have := escapeLength?_le he
            rw [List.length_drop] at hbytes
            rw [List.length_cons]
            omega
          · simp only [bind, Option.bind_eq_some_iff, pure] at h
            obtain ⟨⟨bytes', chars'⟩, hrest, heq⟩ := h
            cases heq
            have hbytes := ih hrest
            have := decode_size_le b t
            have := decode_size_pos b t
            rw [List.length_drop] at hbytes
            rw [List.length_cons]
            omega

theorem indexOf?_append {q : UInt8} {w : Text} (hfree : q ∉ w) (t : Text) : indexOf? q (t ++ w) = indexOf? q t := by
  have hnone : w.findIdx? (· == q) = none := by
    rw [List.findIdx?_eq_none_iff]
    exact fun x hx => by simpa using fun h : x = q => hfree (h ▸ hx)
  rw [indexOf?, indexOf?, List.findIdx?_append, hnone]
  cases t.findIdx? (· == q) <;> rfl

theorem indexOf?_lt {q : UInt8} {t : Text} {n : Nat} (h : indexOf? q t = some n) : n < t.length := by
  rw [indexOf?, List.findIdx?_eq_some_iff_getElem] at h
  exact h.1

theorem quoted?_append {b : UInt8} (hb : b ∈ quotes) (t : Text) {w : Text} (hw : Apart w) (hfree : b ∉ w) :
    quoted? b (t ++ w) = quoted? b t := by
  have hlength : t.length < (t ++ w).length + 1 := by
    rw [List.length_append]
    omega
  have htake : ∀ {n}, n ≤ t.length → (t ++ w).take n = t.take n := fun h => List.take_append_of_le_length h
  have hquoted : ∀ q ∈ quoteMarks, q ∉ w →
      quotedLength? q ((t ++ w).length + 1) (t ++ w) = quotedLength? q (t.length + 1) t :=
    fun q hq hfree => quotedLength?_append hq hw hfree t (Nat.lt_succ_self _) hlength
  simp only [quotes, List.mem_cons, List.not_mem_nil, or_false] at hb
  rcases hb with rfl | rfl | rfl
  · rw [quoted?, quoted?, if_pos rfl, if_pos rfl, hquoted 0x22 (by decide) hfree]
    cases hlen : quotedLength? 0x22 (t.length + 1) t with
    | none => rfl
    | some p => simp [htake (quotedLength?_le hlen)]
  · have hne : ¬ (0x27 : UInt8) = 0x22 := by decide
    rw [quoted?, quoted?, if_neg hne, if_neg hne, if_pos rfl, if_pos rfl, hquoted 0x27 (by decide) hfree]
    cases hlen : quotedLength? 0x27 (t.length + 1) t with
    | none => rfl
    | some p => simp [htake (quotedLength?_le hlen)]
  · have hne : ¬ (0x60 : UInt8) = 0x22 := by decide
    have hne' : ¬ (0x60 : UInt8) = 0x27 := by decide
    rw [quoted?, quoted?, if_neg hne, if_neg hne, if_neg hne', if_neg hne', indexOf?_append hfree]
    cases hindex : indexOf? 0x60 t with
    | none => rfl
    | some n => simp [htake (Nat.succ_le_of_lt (indexOf?_lt hindex))]

theorem quoted?_le {b : UInt8} {t : Text} {k : Token} {n : Nat} (h : quoted? b t = some (k, n)) :
    n ≤ t.length + 1 := by
  rw [quoted?] at h
  split at h
  · simp only [bind, Option.bind_eq_some_iff, pure, Option.some.injEq, Prod.mk.injEq] at h
    obtain ⟨⟨bytes, chars⟩, hlen, -, rfl⟩ := h
    exact Nat.succ_le_succ (quotedLength?_le hlen)
  · split at h
    · simp only [bind, Option.bind_eq_some_iff, pure] at h
      obtain ⟨⟨bytes, chars⟩, hlen, h⟩ := h
      split at h
      · cases h
        exact Nat.succ_le_succ (quotedLength?_le hlen)
      · cases h
    · simp only [bind, Option.bind_eq_some_iff, pure, Option.some.injEq, Prod.mk.injEq] at h
      obtain ⟨m, hindex, -, rfl⟩ := h
      exact Nat.succ_le_succ (indexOf?_lt hindex)

/-! ### Marks -/

theorem find?_startsWith_append {marks : List String} (hmarks : ∀ m ∈ marks, (ofString m).all (!breaks.contains ·))
    (t : Text) {w : Text} (hw : Apart w) :
    (marks.find? fun m : String => startsWith (t ++ w) m) = marks.find? fun m : String => startsWith t m := by
  induction marks with
  | nil => rfl
  | cons m marks ih =>
    rw [List.find?_cons, List.find?_cons, Lexeme.startsWith_append (hmarks m (List.mem_cons_self ..)) t hw,
      ih fun m hm => hmarks m (List.mem_cons_of_mem _ hm)]

theorem mark?_append {b : UInt8} {t w : Text} (hw : Apart w) : mark? (b :: t ++ w) = mark? (b :: t) := by
  rw [mark?, mark?, find?_startsWith_append (by decide) _ hw, find?_startsWith_append (by decide) _ hw]
  rfl

theorem length_le_of_startsWith {marks : List String} (hmarks : ∀ m ∈ marks, m.length = (ofString m).length) {t : Text}
    {m : String} (h : (marks.find? fun m : String => startsWith t m) = some m) : m.length ≤ t.length := by
  have hprefix : ofString m <+: t := by simpa [startsWith] using List.find?_some h
  rw [hmarks m (List.mem_of_find?_eq_some h)]
  exact hprefix.length_le

theorem mark?_le {t : Text} {k : Token} {n : Nat} (h : mark? t = some (k, n)) : n ≤ t.length := by
  have hlong : ∀ {m : String}, (longMarks.find? fun m : String => startsWith t m) = some m → m.length ≤ t.length :=
    fun hm => length_le_of_startsWith (by decide) hm
  rw [mark?] at h
  split at h
  · rename_i hm
    cases h
    exact hlong hm
  · rename_i m _ hm
    cases h
    exact hlong hm
  · have hpos : ∀ {k}, t.head?.bind bracket? = some k → 1 ≤ t.length := by
      intro k hk
      cases t with
      | nil => cases hk
      | cons b t => simp
    split at h
    · rename_i hk
      cases h
      exact hpos hk
    · obtain ⟨m, hm, heq⟩ := Option.map_eq_some_iff.1 h
      cases heq
      have hone : ∀ m ∈ shortMarks, m.length = 1 := by decide
      rw [← hone m (List.mem_of_find?_eq_some hm)]
      exact length_le_of_startsWith (by decide) hm

/-! ### Tokens -/

/-- The token at the start of a text stays when something is put behind it that stands apart and closes no literal. -/
theorem token?_append {b : UInt8} {t w : Text} (hw : Apart w) (hfree : b ∈ quotes → b ∉ w) :
    token? (b :: t ++ w) = token? (b :: t) := by
  have hdigit : ((t ++ w).head?.map isDigit).getD false = (t.head?.map isDigit).getD false :=
    Lexeme.head?_map_append (by decide) t hw
  have htake : (b :: t ++ w).take (wordLength (b :: t)) = (b :: t).take (wordLength (b :: t)) :=
    List.take_append_of_le_length (wordLength_le _)
  have hword := wordLength_append (b :: t) hw
  have hnumeral := numeralLength?_append (b := b) (t := t) hw
  have hmark := mark?_append (b := b) (t := t) hw
  have hquoted : (if b = 0x22 ∨ b = 0x27 ∨ b = 0x60 then quoted? b (t ++ w) else mark? (b :: t)) =
      if b = 0x22 ∨ b = 0x27 ∨ b = 0x60 then quoted? b t else mark? (b :: t) := by
    split
    · rename_i hquote
      have hb : b ∈ quotes := by simpa [quotes] using hquote
      exact quoted?_append hb t hw (hfree hb)
    · rfl
  rw [List.cons_append] at hword htake hnumeral hmark ⊢
  simp only [token?, decode_apart b t hw, hdigit, hword, htake, hnumeral, hmark, hquoted]
  cases hlen : numeralLength? (b :: t) with
  | none => rfl
  | some n =>
    have hcut : (b :: t ++ w).take n = (b :: t).take n := List.take_append_of_le_length (numeralLength?_le hlen)
    rw [List.cons_append] at hcut
    simp [hcut]

theorem token?_le {t : Text} {k : Token} {n : Nat} (h : token? t = some (k, n)) : n ≤ t.length := by
  cases t with
  | nil => cases h
  | cons b t =>
    rw [token?] at h
    split at h
    · cases h
      exact wordLength_le _
    · split at h
      · simp only [bind, Option.bind_eq_some_iff, pure, Option.some.injEq, Prod.mk.injEq] at h
        obtain ⟨m, hlen, -, rfl⟩ := h
        exact numeralLength?_le hlen
      · split at h
        · exact quoted?_le h
        · exact mark?_le h

/-! ### Comments -/

/-- A text is empty or starts with a closing bracket, and has no byte that ends a literal or a comment. -/
structure Closing (w : Text) : Prop where
  head : ∀ c ∈ w.head?, c ∈ [(0x29 : UInt8), 0x5d]
  free : ∀ b ∈ w, b ∉ [(0x22 : UInt8), 0x27, 0x60, 0x2a, 0x3a, 0x0d]

namespace Closing

variable {w : Text} (hw : Closing w)
include hw

theorem apart : Apart w := fun c hc => by
  have hbreaks : ∀ c ∈ [(0x29 : UInt8), 0x5d], c ∈ breaks := List.all_iff_forall_prop.1 (by decide)
  exact hbreaks c (hw.head c hc)

theorem notMem {b : UInt8} (hb : b ∈ [(0x22 : UInt8), 0x27, 0x60, 0x2a, 0x3a, 0x0d]) : b ∉ w :=
  fun h => hw.free b h hb

theorem token?_append (b : UInt8) (t : Text) : token? (b :: t ++ w) = token? (b :: t) := by
  refine Host.token?_append hw.apart fun hb => hw.notMem ?_
  have hquotes : ∀ b ∈ quotes, b ∈ [(0x22 : UInt8), 0x27, 0x60, 0x2a, 0x3a, 0x0d] :=
    List.all_iff_forall_prop.1 (by decide)
  exact hquotes b hb

theorem head?_append {c : UInt8} (hc : c ∉ breaks) (t : Text) : (t ++ w).head? = some c ↔ t.head? = some c :=
  Lexeme.head?_append_eq hc t hw.apart

end Closing

theorem blockLength?_cons (b : UInt8) (t : Text) : blockLength? (b :: t) =
    if b = 0x2a ∧ t.head? = some 0x2f then some 2 else (blockLength? t).map (· + 1) := by
  split
  · rename_i h
    obtain ⟨rfl, hhead⟩ := h
    cases t with
    | nil => cases hhead
    | cons c t =>
      obtain rfl : c = 0x2f := Option.some.inj hhead
      rfl
  · rename_i h
    conv_lhs => unfold blockLength?
    split
    · rename_i heq
      cases heq
    · rename_i heq
      obtain ⟨rfl, rfl⟩ := List.cons.inj heq
      exact absurd ⟨rfl, rfl⟩ h
    · rename_i heq
      obtain ⟨rfl, rfl⟩ := List.cons.inj heq
      rfl

theorem blockLength?_append {w : Text} (hw : Closing w) (t : Text) : blockLength? (t ++ w) = blockLength? t := by
  induction t with
  | nil =>
    have hnone : ∀ u : Text, 0x2a ∉ u → blockLength? u = none := by
      intro u hu
      induction u with
      | nil => rfl
      | cons c u ih =>
        have hc : ¬ (c = 0x2a ∧ u.head? = some 0x2f) := fun h => hu (h.1 ▸ List.mem_cons_self ..)
        rw [blockLength?_cons, if_neg hc, ih fun h => hu (List.mem_cons_of_mem _ h)]
        rfl
    exact hnone w (hw.notMem (by decide))
  | cons b t ih =>
    have hslash : (t ++ w).head? = some 0x2f ↔ t.head? = some 0x2f := hw.head?_append (by decide) t
    rw [List.cons_append, blockLength?_cons, blockLength?_cons, ih]
    simp only [hslash]

theorem blockLength?_le {t : Text} {n : Nat} (h : blockLength? t = some n) : n ≤ t.length := by
  induction t generalizing n with
  | nil => cases h
  | cons b t ih =>
    rw [blockLength?_cons] at h
    split at h
    · rename_i hb
      obtain rfl := Option.some.inj h
      cases t with
      | nil => cases hb.2
      | cons c t => simp
    · obtain ⟨m, hm, rfl⟩ := Option.map_eq_some_iff.1 h
      exact Nat.succ_le_succ (ih hm)

theorem startsWith_append_cons {op : Text} {c : UInt8} (hc : c ∉ op) (u v : Text) :
    startsWith (u ++ c :: v) op = startsWith u op := by
  unfold startsWith
  induction op generalizing u with
  | nil => simp
  | cons b op ih =>
    cases u with
    | nil =>
      have hne : b ≠ c := fun h => hc (h ▸ List.mem_cons_self ..)
      simp [List.isPrefixOf, hne]
    | cons d u =>
      simp only [List.cons_append, List.isPrefixOf]
      rw [ih fun h => hc (List.mem_cons_of_mem _ h)]

/-- A comment that says nothing of a place. -/
def Placeless (content : Text) : Prop := startsWith content "line " = false ∨ 0x3a ∉ content.drop 5

theorem Placeless.fits {content : Text} (h : Placeless content) : commentFits content = true := by
  rcases h with h | h
  · simp [commentFits, h]
  · have hnone : trailingNumber? (content.drop 5) = none := by
      have hall : (content.drop 5).reverse.takeWhile (· != 0x3a) = (content.drop 5).reverse := by
        rw [List.takeWhile_eq_self_iff]
        exact fun b hb => by simpa using fun he : b = 0x3a => h (he ▸ List.mem_reverse.1 hb)
      rw [trailingNumber?, hall]
      simp
    rw [commentFits, hnone]
    split <;> rfl

theorem Placeless.dropLast {content : Text} (h : Placeless content) : Placeless content.dropLast := by
  rcases h with h | h
  · refine .inl ?_
    rw [← Bool.not_eq_true] at h ⊢
    intro hstart
    have hprefix : ofString "line " <+: content.dropLast := by simpa [startsWith] using hstart
    exact h (by simpa [startsWith] using hprefix.trans (List.dropLast_prefix content))
  · exact .inr fun hmem => h (((List.dropLast_sublist content).drop 5).subset hmem)

theorem Placeless.append {content w : Text} (h : Placeless content) (hw : Closing w) : Placeless (content ++ w) := by
  rcases h with h | h
  · cases w with
    | nil => exact .inl (by rwa [List.append_nil])
    | cons c w =>
      have hline : ∀ c ∈ [(0x29 : UInt8), 0x5d], c ∉ ofString "line " := List.all_iff_forall_prop.1 (by decide)
      exact .inl ((startsWith_append_cons (hline c (hw.head c rfl)) content w).trans h)
  · refine .inr fun hmem => ?_
    rw [List.drop_append, List.mem_append] at hmem
    rcases hmem with hmem | hmem
    · exact h hmem
    · exact hw.notMem (by decide) (List.mem_of_mem_drop hmem)

/-- With a closing bracket behind it no comment says a place. -/
theorem placeless_of_fits {content w : Text} {c : UInt8} (hw : Closing (c :: w))
    (h : commentFits (content ++ c :: w) = true) : Placeless content := by
  by_contra hplace
  simp only [Placeless, not_or, Bool.not_eq_false, not_not] at hplace
  obtain ⟨hstart, hcolon⟩ := hplace
  have hline : ∀ c ∈ [(0x29 : UInt8), 0x5d], c ∉ ofString "line " := List.all_iff_forall_prop.1 (by decide)
  have hstart' := (startsWith_append_cons (hline c (hw.head c rfl)) content w).trans hstart
  have hlen : 5 ≤ content.length := by
    have hprefix : ofString "line " <+: content := by simpa [startsWith] using hstart
    exact hprefix.length_le
  -- the bracket is among the bytes after the last colon
  obtain ⟨digits, hdigits, hmem, hshort⟩ : ∃ digits, (((content ++ c :: w).drop 5).reverse.takeWhile
    (· != 0x3a)).reverse =
      digits ∧ c ∈ digits ∧ digits.length ≠ ((content ++ c :: w).drop 5).length := by
    refine ⟨_, rfl, ?_, fun hlen => ?_⟩
    · have hfree : ∀ b ∈ (c :: w).reverse, (b != 0x3a) = true := by
        intro b hb
        simpa using fun he : b = 0x3a => hw.notMem (by decide) (he ▸ List.mem_reverse.1 hb)
      rw [List.drop_append_of_le_length hlen, List.reverse_append, List.takeWhile_append_of_pos hfree,
        List.mem_reverse, List.mem_append]
      exact .inl (by simp)
    · rw [List.length_reverse] at hlen
      have hall := List.IsPrefix.eq_of_length (List.takeWhile_prefix _) (hlen.trans List.length_reverse.symm)
      rw [List.takeWhile_eq_self_iff] at hall
      have hcolon' : (0x3a : UInt8) ∈ (content ++ c :: w).drop 5 := by
        rw [List.drop_append]
        exact List.mem_append_left _ hcolon
      simpa using hall 0x3a (List.mem_reverse.2 hcolon')
  have hc : hexValue? c = none := hexValue?_break c (hw.apart c rfl)
  have hnumber : trailingNumber? ((content ++ c :: w).drop 5) =
      some (((content ++ c :: w).drop 5).take (((content ++ c :: w).drop 5).length - digits.length - 1), none) := by
    rw [trailingNumber?, hdigits, digitsValue?_eq_none 10 hmem hc, if_neg (by simpa using hshort)]
    rfl
  rw [commentFits, hstart', hnumber] at h
  cases h

/-! ### Cutting -/

/-- Cutting with room for every step. -/
def lex (open_ fresh : Bool) (t : Text) : Option (List Token) := cut (t.length + 1) open_ fresh t

theorem cut_eq_cut {n m : Nat} {o f : Bool} {t : Text} (hn : t.length < n) (hm : t.length < m) :
    cut n o f t = cut m o f t := by
  induction n generalizing m o f t with
  | zero => omega
  | succ n ih =>
    obtain ⟨m, rfl⟩ := Nat.exists_eq_succ_of_ne_zero (by omega : m ≠ 0)
    cases t with
    | nil => rfl
    | cons b t =>
      rw [List.length_cons] at hn hm
      have hsuffix : ∀ {u : Text} (o f : Bool), u.length ≤ t.length → cut n o f u = cut m o f u :=
        fun o f hu => ih (by omega) (by omega)
      have hdrop : ∀ k (o f : Bool), cut n o f (t.drop k) = cut m o f (t.drop k) :=
        fun k o f => hsuffix o f (List.drop_sublist k t).length_le
      have hline : ∀ o f : Bool, cut n o f (t.dropWhile (· != 0x0a)) = cut m o f (t.dropWhile (· != 0x0a)) :=
        fun o f => hsuffix o f (List.dropWhile_suffix _).length_le
      have hwhole : ∀ o f : Bool, cut n o f t = cut m o f t := fun o f => hsuffix o f (Nat.le_refl _)
      simp only [cut, hdrop, hline, hwhole]

theorem cut_eq_lex {n : Nat} {o f : Bool} {t : Text} (hn : t.length < n) : cut n o f t = lex o f t :=
  cut_eq_cut hn (Nat.lt_succ_self _)

/-- The end of a text ends the line: no line is open after the last token. -/
theorem cut_ends {n : Nat} {o f : Bool} {t : Text} {ts : List Token} (h : cut n o f t = some ts) :
    ts.getLast?.elim o Token.endsLine = false := by
  induction n generalizing o f t ts with
  | zero => cases h
  | succ n ih =>
    have hcons : ∀ {k : Token} {o' f : Bool} {u : Text}, k.endsLine = o' → (cut n o' f u).map (k :: ·) = some ts →
        ts.getLast?.elim o Token.endsLine = false := by
      rintro k _ f u rfl h
      obtain ⟨us, hus, rfl⟩ := Option.map_eq_some_iff.1 h
      have hlast := ih hus
      rw [List.getLast?_cons]
      cases hus : us.getLast? with
      | none => rwa [hus] at hlast
      | some l => rwa [hus] at hlast
    cases t with
    | nil =>
      obtain rfl := Option.some.inj h
      cases o <;> rfl
    | cons b t =>
      rw [cut] at h
      split at h
      · exact ih h
      split at h
      · split at h
        · exact hcons rfl h
        · obtain rfl : o = false := by simpa using ‹¬o = true›
          exact ih h
      split at h
      · exact ih (Option.ite_none_left_eq_some.1 h).2
      split at h
      · obtain ⟨size, -, h⟩ := Option.bind_eq_some_iff.1 h
        cases hfits : !commentFits ((t.drop 1).take (size - 2)) with
        | true =>
          rw [hfits] at h
          cases h
        | false =>
          rw [hfits, if_neg Bool.false_ne_true] at h
          dsimp only at h
          split at h
          · exact hcons rfl h
          · exact ih h
      · obtain ⟨⟨k, size⟩, -, h⟩ := Option.bind_eq_some_iff.1 h
        exact hcons rfl h

theorem tokens?_ends {t : Text} (ts : List Token) {k : Token} (h : tokens? t = some (ts ++ [k])) :
    k.endsLine = false := by
  rw [tokens?] at h
  split at h
  · simpa using cut_ends h
  · cases h

theorem lex_cons (o f : Bool) (b : UInt8) (t : Text) : lex o f (b :: t) =
    if b = 0x20 ∨ b = 0x09 ∨ b = 0x0d then lex o false t
    else if b = 0x0a then
      if o then (lex false true t).map (.semicolon false :: ·) else lex false true t
    else if b = 0x2f ∧ t.head? = some 0x2f then
      let content := (t.drop 1).takeWhile (· != 0x0a)
      let content := if content.getLast? = some 0x0d then content.dropLast else content
      if f && !commentFits content then none else lex o false (t.dropWhile (· != 0x0a))
    else if b = 0x2f ∧ t.head? = some 0x2a then (blockLength? (t.drop 1)).bind fun size =>
      if !commentFits ((t.drop 1).take (size - 2)) then none
      else if o && ((t.drop 1).take size).contains 0x0a then
        (lex false false (t.drop (1 + size))).map (.semicolon false :: ·)
      else lex o false (t.drop (1 + size))
    else (token? (b :: t)).bind fun (tok, size) => (lex tok.endsLine false (t.drop (size - 1))).map (tok :: ·) := by
  have hdrop : ∀ k (o f : Bool), cut (t.length + 1) o f (t.drop k) = lex o f (t.drop k) :=
    fun k o f => cut_eq_lex (Nat.lt_succ_of_le (List.drop_sublist k t).length_le)
  have hline : ∀ o f : Bool, cut (t.length + 1) o f (t.dropWhile (· != 0x0a)) = lex o f (t.dropWhile (· != 0x0a)) :=
    fun o f => cut_eq_lex (Nat.lt_succ_of_le (List.dropWhile_suffix _).length_le)
  have hwhole : ∀ o f : Bool, cut (t.length + 1) o f t = lex o f t := fun o f => rfl
  rw [lex, List.length_cons]
  simp only [cut, hdrop, hline, hwhole, bind, Option.bind_none]

/-- What cutting a text leaves to do with what stands behind it: `ts` are its tokens, `o'` tells whether its last line
is open, and `swallows` whether that ends in a line comment. -/
def Leaves (o f : Bool) (s : Text) (ts : List Token) (o' swallows : Bool) : Prop :=
  ∀ w, Closing w → lex o f (s ++ w) = (lex o' false (if swallows then w.dropWhile (· != 0x0a) else w)).map (ts ++ ·)

/-- Cutting a text amounts to cutting another one after `us`, whatever stands behind both. -/
def Goes (o f : Bool) (s : Text) (us : List Token) (o' f' : Bool) (s' : Text) : Prop :=
  ∀ w, Closing w → lex o f (s ++ w) = (lex o' f' (s' ++ w)).map (us ++ ·)

theorem Leaves.of_goes {o f o₁ f₁ o' swallows : Bool} {s s₁ : Text} {us ts : List Token} (h : Goes o f s us o₁ f₁ s₁)
    (h₁ : Leaves o₁ f₁ s₁ ts o' swallows) : Leaves o f s (us ++ ts) o' swallows := by
  intro w hw
  rw [h w hw, h₁ w hw, Option.map_map]
  congr 1
  funext us'
  exact (List.append_assoc us ts us').symm

/-- Where a line starts matters before a comment only. -/
theorem lex_fresh {w : Text} (hw : Closing w) (o f : Bool) : lex o f w = lex o false w := by
  cases w with
  | nil => rfl
  | cons c w =>
    have hc : ¬ (c = 0x20 ∨ c = 0x09 ∨ c = 0x0d) ∧ c ≠ 0x0a ∧ c ≠ 0x2f := by
      have hclosing : ∀ c ∈ [(0x29 : UInt8), 0x5d], ¬ (c = 0x20 ∨ c = 0x09 ∨ c = 0x0d) ∧ c ≠ 0x0a ∧ c ≠ 0x2f :=
        List.all_iff_forall_prop.1 (by decide)
      exact hclosing c (hw.head c rfl)
    rw [lex_cons, lex_cons]
    simp only [hc.2.2, false_and, if_false]

theorem leaves_nil (o f : Bool) : Leaves o f [] [] o false := by
  intro w hw
  rw [List.nil_append, lex_fresh hw]
  simp

section Step

variable {o f : Bool} {b : UInt8} {t : Text}

theorem goes_blank (hb : b = 0x20 ∨ b = 0x09 ∨ b = 0x0d) : Goes o f (b :: t) [] o false t := by
  intro w _
  rw [List.cons_append, lex_cons, if_pos hb]
  simp

theorem goes_newline : Goes o f (0x0a :: t) (if o then [.semicolon false] else []) false true t := by
  intro w _
  rw [List.cons_append, lex_cons, if_neg (by decide), if_pos rfl]
  cases o <;> simp

section Token

variable (hblank : ¬ (b = 0x20 ∨ b = 0x09 ∨ b = 0x0d)) (hnewline : b ≠ 0x0a)
  (hcomment : ¬ (b = 0x2f ∧ (t.head? = some 0x2f ∨ t.head? = some 0x2a)))
include hblank hnewline hcomment

theorem lex_token (o f : Bool) : lex o f (b :: t) =
    (token? (b :: t)).bind fun (k, n) => (lex k.endsLine false (t.drop (n - 1))).map (k :: ·) := by
  rw [lex_cons, if_neg hblank, if_neg hnewline, if_neg fun h => hcomment ⟨h.1, .inl h.2⟩,
    if_neg fun h => hcomment ⟨h.1, .inr h.2⟩]

theorem lex_token_append {w : Text} (hw : Closing w) (o f : Bool) : lex o f (b :: t ++ w) =
    (token? (b :: t)).bind fun (k, n) => (lex k.endsLine false (t.drop (n - 1) ++ w)).map (k :: ·) := by
  have hcomment' : ¬ (b = 0x2f ∧ ((t ++ w).head? = some 0x2f ∨ (t ++ w).head? = some 0x2a)) := by
    rwa [hw.head?_append (by decide), hw.head?_append (by decide)]
  rw [List.cons_append, lex_token hblank hnewline hcomment', ← List.cons_append, hw.token?_append]
  cases htoken : token? (b :: t) with
  | none => rfl
  | some p =>
    obtain ⟨k, n⟩ := p
    have hn := token?_le htoken
    rw [List.length_cons] at hn
    have hdrop : (t ++ w).drop (n - 1) = t.drop (n - 1) ++ w := List.drop_append_of_le_length (by omega)
    simp only [Option.bind_some, hdrop]

theorem goes_token {k : Token} {n : Nat} (h : token? (b :: t) = some (k, n)) :
    Goes o f (b :: t) [k] k.endsLine false (t.drop (n - 1)) := by
  intro w hw
  rw [lex_token_append hblank hnewline hcomment hw, h]
  rfl

theorem exists_token_of_lex {w : Text} (hw : Closing w) (h : (lex o f (b :: t ++ w)).isSome) :
    ∃ k n, token? (b :: t) = some (k, n) := by
  rw [lex_token_append hblank hnewline hcomment hw] at h
  cases htoken : token? (b :: t) with
  | none =>
    rw [htoken] at h
    cases h
  | some k => exact ⟨k.1, k.2, rfl⟩

end Token

theorem lex_block (o f : Bool) (t : Text) : lex o f (0x2f :: 0x2a :: t) = (blockLength? t).bind fun size =>
    if !commentFits (t.take (size - 2)) then none
    else if o && (t.take size).contains 0x0a then (lex false false (t.drop size)).map (.semicolon false :: ·)
    else lex o false (t.drop size) := by
  rw [lex_cons, if_neg (by decide), if_neg (by decide), if_neg (by simp), if_pos ⟨rfl, rfl⟩]
  simp only [List.drop_succ_cons, List.drop_zero, Nat.add_comm 1]

theorem goes_block {size : Nat} (hsize : blockLength? t = some size) (hfits : commentFits (t.take (size - 2)) = true) :
    Goes o f (0x2f :: 0x2a :: t) (if o && (t.take size).contains 0x0a then [.semicolon false] else [])
      (o && !(t.take size).contains 0x0a) false (t.drop size) := by
  intro w hw
  have hle := blockLength?_le hsize
  have htake : ∀ {n}, n ≤ size → (t ++ w).take n = t.take n := fun h => List.take_append_of_le_length (h.trans hle)
  rw [List.cons_append, List.cons_append, lex_block, blockLength?_append hw, hsize, Option.bind_some,
    htake (Nat.sub_le _ _), htake (Nat.le_refl _), hfits, List.drop_append_of_le_length hle]
  cases o <;> cases (t.take size).contains 0x0a <;> simp

theorem exists_goes_block {w : Text} (hw : Closing w) (h : (lex o f (0x2f :: 0x2a :: t ++ w)).isSome) :
    ∃ us o' t', t'.length ≤ t.length ∧ Goes o f (0x2f :: 0x2a :: t) us o' false t' := by
  rw [List.cons_append, List.cons_append, lex_block, blockLength?_append hw] at h
  cases hsize : blockLength? t with
  | none =>
    rw [hsize] at h
    cases h
  | some size =>
    rw [hsize, Option.bind_some, List.take_append_of_le_length ((Nat.sub_le _ _).trans (blockLength?_le hsize))] at h
    split at h
    · cases h
    · rename_i hfits
      exact ⟨_, _, _, (List.drop_sublist size t).length_le, goes_block hsize (by simpa using hfits)⟩

/-- What a line comment says, given the rest of its line. -/
def lineContent (line : Text) : Text := if line.getLast? = some 0x0d then line.dropLast else line

theorem lex_line (o f : Bool) (t : Text) : lex o f (0x2f :: 0x2f :: t) =
    if f && !commentFits (lineContent (t.takeWhile (· != 0x0a))) then none
    else lex o false (t.dropWhile (· != 0x0a)) := by
  rw [lex_cons, if_neg (by decide), if_neg (by decide), if_pos ⟨rfl, rfl⟩]
  rfl

/-- A line comment that ends before the text does. -/
theorem goes_line {w : Text} (hend : 0x0a ∈ t) (h : (lex o f (0x2f :: 0x2f :: t ++ w)).isSome) :
    Goes o f (0x2f :: 0x2f :: t) [] o false (t.dropWhile (· != 0x0a)) := by
  have hstop : ¬ ∀ b ∈ t, (b != 0x0a) = true := fun h => by simpa using h 0x0a hend
  have hline : ∀ w, (t ++ w).takeWhile (· != 0x0a) = t.takeWhile (· != 0x0a) := by
    intro w
    rw [List.takeWhile_append, if_neg]
    exact fun h => hstop (List.takeWhile_eq_self_iff.1 ((List.takeWhile_prefix _).eq_of_length h))
  have hrest : ∀ w, (t ++ w).dropWhile (· != 0x0a) = t.dropWhile (· != 0x0a) ++ w := by
    intro w
    rw [List.dropWhile_append, if_neg]
    exact fun h => hstop (List.dropWhile_eq_nil_iff.1 (List.isEmpty_iff.1 h))
  intro v _
  rw [List.cons_append, List.cons_append, lex_line, hline] at h ⊢
  split at h
  · cases h
  · rename_i hfits
    rw [if_neg hfits, hrest]
    simp

theorem takeWhile_closing {w : Text} (hw : Closing w) : Closing (w.takeWhile (· != 0x0a)) where
  head := by
    intro c hc
    cases w with
    | nil => cases hc
    | cons d w =>
      rw [List.takeWhile_cons] at hc
      split at hc
      · exact hw.head c hc
      · cases hc
  free := fun b hb => hw.free b ((List.takeWhile_prefix _).subset hb)

/-- A line comment that reaches to the end of the text swallows what stands behind. -/
theorem leaves_line (hend : 0x0a ∉ t) (hplace : f = true → Placeless t) :
    Leaves o f (0x2f :: 0x2f :: t) [] o true := by
  intro w hw
  have hall : ∀ b ∈ t, (b != 0x0a) = true := fun b hb => by simpa using fun he : b = 0x0a => hend (he ▸ hb)
  have hfits : (f && !commentFits (lineContent (t ++ w.takeWhile (· != 0x0a)))) = false := by
    cases f with
    | false => rfl
    | true =>
      have happend := (hplace rfl).append (takeWhile_closing hw)
      rw [lineContent]
      split
      · simp [happend.dropLast.fits]
      · simp [happend.fits]
  rw [List.cons_append, List.cons_append, lex_line, List.takeWhile_append_of_pos hall, hfits,
    List.dropWhile_append_of_pos hall]
  simp

theorem placeless_of_lex {w : Text} {c : UInt8} (hw : Closing (c :: w)) (hend : 0x0a ∉ t) (hf : f = true)
    (h : (lex o f (0x2f :: 0x2f :: t ++ c :: w)).isSome) : Placeless t := by
  have hall : ∀ b ∈ t, (b != 0x0a) = true := fun b hb => by simpa using fun he : b = 0x0a => hend (he ▸ hb)
  have hc : c ≠ 0x0a := by
    have hclosing : ∀ c ∈ [(0x29 : UInt8), 0x5d], c ≠ 0x0a := List.all_iff_forall_prop.1 (by decide)
    exact hclosing c (hw.head c rfl)
  have htake : (c :: w).takeWhile (· != 0x0a) = c :: w.takeWhile (· != 0x0a) :=
    List.takeWhile_cons_of_pos (by simpa using hc)
  have hclosing : Closing (c :: w.takeWhile (· != 0x0a)) := htake ▸ takeWhile_closing hw
  have hcontent : lineContent (t ++ c :: w.takeWhile (· != 0x0a)) = t ++ c :: w.takeWhile (· != 0x0a) := by
    refine if_neg fun hlast => ?_
    rw [List.getLast?_append, List.getLast?_eq_some_getLast (List.cons_ne_nil _ _)] at hlast
    have hmem := List.getLast_mem (List.cons_ne_nil c (w.takeWhile (· != 0x0a)))
    rw [Option.some.inj hlast] at hmem
    exact hclosing.notMem (by decide) hmem
  subst hf
  rw [List.cons_append, List.cons_append, lex_line, List.takeWhile_append_of_pos hall, htake, hcontent] at h
  split at h
  · cases h
  · rename_i hfits
    exact placeless_of_fits hclosing (by simpa using hfits)

end Step

/-- What stands behind a text leaves its tokens as they are. -/
theorem exists_leaves {o f : Bool} {s w : Text} {c : UInt8} (hw : Closing (c :: w))
    (h : (lex o f (s ++ c :: w)).isSome) : ∃ ts o' swallows, Leaves o f s ts o' swallows := by
  induction hlen : s.length using Nat.strong_induction_on generalizing s o f with
  | _ n ih =>
    subst hlen
    have hgo : ∀ {us o₁ f₁ s₁}, Goes o f s us o₁ f₁ s₁ → s₁.length < s.length →
        ∃ ts o' swallows, Leaves o f s ts o' swallows := by
      intro us o₁ f₁ s₁ hgoes hshort
      rw [hgoes _ hw, Option.isSome_map] at h
      obtain ⟨ts, o', swallows, hleaves⟩ := ih _ hshort h rfl
      exact ⟨us ++ ts, o', swallows, .of_goes hgoes hleaves⟩
    cases s with
    | nil => exact ⟨[], o, false, leaves_nil o f⟩
    | cons b t =>
      by_cases hblank : b = 0x20 ∨ b = 0x09 ∨ b = 0x0d
      · exact hgo (goes_blank hblank) (Nat.lt_succ_self _)
      by_cases hnewline : b = 0x0a
      · subst hnewline
        exact hgo goes_newline (Nat.lt_succ_self _)
      by_cases hline : b = 0x2f ∧ t.head? = some 0x2f
      · obtain ⟨rfl, hhead⟩ := hline
        obtain ⟨t, rfl⟩ : ∃ u, t = 0x2f :: u := List.head?_eq_some_iff.1 hhead
        by_cases hend : 0x0a ∈ t
        · refine hgo (goes_line hend h) ?_
          have := List.length_dropWhile_le (· != 0x0a) t
          simp only [List.length_cons]
          omega
        · exact ⟨[], o, true, leaves_line hend fun hf => placeless_of_lex hw hend hf h⟩
      by_cases hblock : b = 0x2f ∧ t.head? = some 0x2a
      · obtain ⟨rfl, hhead⟩ := hblock
        obtain ⟨t, rfl⟩ : ∃ u, t = 0x2a :: u := List.head?_eq_some_iff.1 hhead
        obtain ⟨us, o', t', hshort, hgoes⟩ := exists_goes_block hw h
        refine hgo hgoes ?_
        simp only [List.length_cons]
        omega
      · have hcomment : ¬ (b = 0x2f ∧ (t.head? = some 0x2f ∨ t.head? = some 0x2a)) := by tauto
        obtain ⟨k, n, htoken⟩ := exists_token_of_lex hblank hnewline hcomment hw h
        refine hgo (goes_token hblank hnewline hcomment htoken) ?_
        simp only [List.length_drop, List.length_cons]
        omega

/-! ### Frames -/

theorem isClean_apart (t : Text) {w : Text} (hw : Apart w) : isClean (t ++ w) = (isClean t && isClean w) := by
  rw [isClean, decodeAll_apart t hw, List.all_append]
  rfl

theorem isClean_ascii {p : Text} (hp : p.all fun a => a < 0x80 && a != 0) (t : Text) :
    isClean (p ++ t) = isClean t := by
  induction p with
  | nil => rfl
  | cons a p ih =>
    rw [List.all_cons, Bool.and_eq_true, Bool.and_eq_true] at hp
    obtain ⟨⟨hlt, hzero⟩, hrest⟩ := hp
    have hdecode : decode a (p ++ t) = ⟨a.toNat, true, 1⟩ := if_pos (by simpa using hlt)
    have hbom : a.toNat ≠ 0xfeff := by
      have := a.toNat_lt
      omega
    have hne : a.toNat ≠ 0 := fun h => by simp [UInt8.toNat_inj.1 (h.trans rfl : a.toNat = (0 : UInt8).toNat)] at hzero
    have hfirst : (true && a.toNat != 0 && a.toNat != 0xfeff) = true := by simp [hbom, hne]
    rw [List.cons_append, isClean, decodeAll, afterFirst, hdecode, List.all_cons, hfirst, Bool.true_and]
    exact ih hrest

theorem token?_break {b : UInt8} (hb : b ∈ breaks) (t : Text) : token? (b :: t) = (bracket? b).map (·, 1) := by
  have hbreaks : ∀ b ∈ breaks, isWordStart b.toNat = false ∧ isDigit b = false ∧ b ≠ 0x2e ∧ b ∉ quotes :=
    List.all_iff_forall_prop.1 (by decide)
  obtain ⟨hword, hdigit, hpoint, hquote⟩ := hbreaks b hb
  have hnone : ∀ {marks : List String}, (∀ m ∈ marks, ∃ c ∈ (ofString m).head?, c ∉ breaks) →
      (marks.find? fun m : String => startsWith (b :: t) m) = none := by
    intro marks hmarks
    rw [List.find?_eq_none]
    intro m hm
    obtain ⟨c, hc, hbreak⟩ := hmarks m hm
    obtain ⟨u, hu⟩ := List.head?_eq_some_iff.1 hc
    have hne : c ≠ b := fun h => hbreak (h ▸ hb)
    simp [startsWith, hu, List.isPrefixOf, hne]
  simp only [quotes, List.mem_cons, List.not_mem_nil, or_false] at hquote
  rw [token?, decode_break hb, if_neg (by simp [hword]), if_neg (by simp [hdigit, hpoint]), if_neg hquote, mark?,
    hnone (by decide), hnone (by decide)]
  cases h : bracket? b <;> simp [h]

theorem lex_bracket {b : UInt8} (hb : b ∈ breaks) {k : Token} (hk : bracket? b = some k) (o f : Bool) (t : Text) :
    lex o f (b :: t) = (lex k.endsLine false t).map (k :: ·) := by
  have hbreaks : ∀ b ∈ breaks, (bracket? b).isSome → ¬ (b = 0x20 ∨ b = 0x09 ∨ b = 0x0d) ∧ b ≠ 0x0a ∧ b ≠ 0x2f :=
    List.all_iff_forall_prop.1 (by decide)
  obtain ⟨hblank, hnewline, hslash⟩ := hbreaks b hb (by rw [hk]; rfl)
  rw [lex_token hblank hnewline (fun h => hslash h.1), token?_break hb, hk]
  rfl

/-- A word or an operator before something that stands apart. -/
theorem lex_apart {b : UInt8} {t w : Text} {k : Token} (hb : b ∉ [(0x20 : UInt8), 0x09, 0x0d, 0x0a, 0x2f, 0x22,
    0x27, 0x60])
    (hk : token? (b :: t) = some (k, t.length + 1)) (hw : Apart w) (o f : Bool) :
    lex o f (b :: t ++ w) = (lex k.endsLine false w).map (k :: ·) := by
  simp only [List.mem_cons, List.not_mem_nil, or_false, not_or] at hb
  have hquote : b ∉ quotes := by simp [quotes, hb]
  have htoken : token? (b :: (t ++ w)) = some (k, t.length + 1) :=
    (token?_append hw fun h => absurd h hquote).trans hk
  rw [List.cons_append, lex_token (by simp [hb]) hb.2.2.2.1 (fun h => hb.2.2.2.2.1 h.1), htoken]
  simp

/-- The tokens that the end of a text implies. -/
def ends (open_ : Bool) : List Token := if open_ then [.semicolon false] else []

/-- A text before fragments and one after them, with their tokens; those of the latter may depend on whether the line
before it is open. -/
structure Frame (opening closing : Text) (before : List Token) (after : Bool → List Token) : Prop where
  lex_opening : ∀ s, lex false true (opening ++ s) = (lex false false s).map (before ++ ·)
  clean_opening : opening.all fun a => a < 0x80 && a != 0
  closes : Closing closing
  lex_closing : ∀ o, lex o false closing = some (after o)
  lex_swallowed : ∀ o, lex o false (closing.dropWhile (· != 0x0a)) = some (ends o)
  clean_closing : isClean closing = true

namespace Frame

variable {opening closing s : Text} {before : List Token} {after : Bool → List Token}

theorem isClean_eq (h : Frame opening closing before after) (s : Text) :
    isClean (opening ++ s ++ closing) = isClean s := by
  rw [isClean_apart _ h.closes.apart, isClean_ascii h.clean_opening, h.clean_closing, Bool.and_true]

/-- The tokens of a fragment in a frame. -/
theorem tokens?_eq (h : Frame opening closing before after) (hs : isClean s = true) {ts : List Token}
    {o swallows : Bool}
    (hleaves : Leaves false false s ts o swallows) :
    tokens? (opening ++ s ++ closing) = some (before ++ (ts ++ if swallows then ends o else after o)) := by
  have hlex : lex false true (opening ++ s ++ closing) = (lex false false (s ++ closing)).map (before ++ ·) := by
    rw [List.append_assoc, h.lex_opening]
  rw [tokens?, h.isClean_eq, if_pos hs]
  refine hlex.trans ?_
  rw [hleaves closing h.closes]
  cases swallows with
  | false => simp [h.lex_closing]
  | true => simp [h.lex_swallowed]

/-- A fragment that can be cut in a frame can be cut in all. -/
theorem exists_leaves (h : Frame opening closing before after) (hne : closing ≠ []) {X : List Token}
    (hX : tokens? (opening ++ s ++ closing) = some X) :
    isClean s = true ∧ ∃ ts o swallows, Leaves false false s ts o swallows := by
  rw [tokens?, h.isClean_eq] at hX
  split at hX
  · rename_i hs
    refine ⟨hs, ?_⟩
    change lex false true (opening ++ s ++ closing) = some X at hX
    rw [List.append_assoc, h.lex_opening] at hX
    obtain ⟨c, w, hw⟩ := List.exists_cons_of_ne_nil hne
    have hclosing := h.closes
    rw [hw] at hX hclosing
    exact Host.exists_leaves hclosing (by rw [← Option.isSome_map, hX]; rfl)
  · cases hX

end Frame

theorem closing_nil : Closing [] := ⟨by simp, by simp⟩

theorem closing_cons {c : UInt8} {w : Text} (hc : c ∈ [(0x29 : UInt8), 0x5d])
    (hw : (c :: w).all (· ∉ [(0x22 : UInt8), 0x27, 0x60, 0x2a, 0x3a, 0x0d])) : Closing (c :: w) where
  head := fun _ ha => Option.some.inj ha ▸ hc
  free := List.all_iff_forall_prop.1 hw

theorem lex_lparen (s : Text) : lex false true ("(" ++ s) = (lex false false s).map ([.lparen] ++ ·) :=
  lex_bracket (by decide) rfl false true s

/-- A fragment after a bracket that is not closed. -/
theorem frame_open : Frame "(" [] [.lparen] ends where
  lex_opening := lex_lparen
  clean_opening := by decide
  closes := closing_nil
  lex_closing := fun _ => rfl
  lex_swallowed := fun _ => rfl
  clean_closing := by simp [isClean, decodeAll]

/-- A fragment in brackets. -/
theorem frame_brackets : Frame "(" ")" [.lparen] fun _ => [.rparen, .semicolon false] where
  lex_opening := lex_lparen
  clean_opening := by decide
  closes := closing_cons (by decide) (by decide)
  lex_closing := fun o => lex_bracket (by decide) rfl o false []
  lex_swallowed := fun _ => rfl
  clean_closing := by decide +kernel

/-- A word before a byte that stands apart. -/
theorem lex_word {b : UInt8} {t : Text} {k : Token}
    (hb : b ∉ [(0x20 : UInt8), 0x09, 0x0d, 0x0a, 0x2f, 0x22, 0x27, 0x60])
    (hk : token? (b :: t) = some (k, t.length + 1)) {c : UInt8} (hc : c ∈ breaks) (o f : Bool) (w : Text) :
    lex o f (b :: t ++ c :: w) = (lex k.endsLine false (c :: w)).map (k :: ·) := by
  refine lex_apart hb hk (fun d hd => ?_) o f
  obtain rfl : c = d := Option.some.inj hd
  exact hc

theorem lex_keyword_func (f : Bool) {c : UInt8} (hc : c ∈ breaks) (w : Text) :
    lex false f ("func" ++ c :: w) = (lex false false (c :: w)).map (.keyword "func" :: ·) :=
  lex_word (b := 0x66) (t := "unc") (by decide)
    (by decide +kernel : token? (0x66 :: "unc") = some (.keyword "func", 4)) hc false f w

theorem lex_func (s : Text) : lex false true ("func(" ++ s) =
    (lex false false s).map ([.keyword "func", .lparen] ++ ·) := by
  have hword := lex_keyword_func true (by decide : (0x28 : UInt8) ∈ breaks) s
  rw [lex_bracket (b := 0x28) (k := .lparen) (by decide) rfl, Option.map_map] at hword
  exact hword

theorem lex_results (s : Text) :
    lex false true ("func()" ++ s) = (lex true false s).map ([.keyword "func", .lparen, .rparen] ++ ·) := by
  have hparams := lex_func (")" ++ s)
  have hbracket : lex false false (")" ++ s) = (lex true false s).map (.rparen :: ·) :=
    lex_bracket (b := 0x29) (by decide) rfl false false s
  rw [hbracket, Option.map_map] at hparams
  exact hparams

theorem lex_typeParams (s : Text) : lex false true ("package p\nfunc f[" ++ s) = (lex false false s).map
    ([.keyword "package", .ident "p", .semicolon false, .keyword "func", .ident "f", .lbrack] ++ ·) := by
  have hspace : ∀ (o f : Bool) (t : Text), lex o f (0x20 :: t) = lex o false t :=
    fun o f t => (lex_cons o f 0x20 t).trans (if_pos (.inl rfl))
  have hnewline : ∀ t : Text, lex true false (0x0a :: t) = (lex false true t).map (.semicolon false :: ·) := by
    intro t
    rw [lex_cons, if_neg (by decide), if_pos rfl, if_pos rfl]
  -- the words from the last to the first
  obtain ⟨u, hu⟩ : ∃ u : Text, u = ("f" : Text) ++ 0x5b :: s := ⟨_, rfl⟩
  obtain ⟨v, hv⟩ : ∃ v : Text, v = ("func" : Text) ++ 0x20 :: u := ⟨_, rfl⟩
  obtain ⟨x, hx⟩ : ∃ x : Text, x = ("p" : Text) ++ 0x0a :: v := ⟨_, rfl⟩
  have hname : lex false false u = (lex false false s).map ([.ident "f", .lbrack] ++ ·) := by
    have hword := lex_word (b := 0x66) (t := []) (by decide)
      (by decide +kernel : token? [0x66] = some (.ident "f", 1)) (by decide : (0x5b : UInt8) ∈ breaks) false false s
    rw [lex_bracket (b := 0x5b) (k := .lbrack) (by decide) rfl, Option.map_map] at hword
    exact hu ▸ hword
  have hfunc : lex false true v = (lex false false u).map (.keyword "func" :: ·) := by
    rw [hv, lex_keyword_func true (by decide : (0x20 : UInt8) ∈ breaks) u, hspace]
  have hline : lex false false x = (lex false true v).map ([.ident "p", .semicolon false] ++ ·) := by
    have hword := lex_word (b := 0x70) (t := []) (by decide)
      (by decide +kernel : token? [0x70] = some (.ident "p", 1)) (by decide : (0x0a : UInt8) ∈ breaks) false false v
    have hopen : Token.endsLine (.ident "p") = true := rfl
    rw [hopen, hnewline, Option.map_map] at hword
    exact hx ▸ hword
  have hpackage : lex false true (("package" : Text) ++ 0x20 :: x) =
    (lex false false x).map (.keyword "package" :: ·) := by
    have hword := lex_word (b := 0x70) (t := "ackage") (by decide)
      (by decide +kernel : token? (0x70 :: "ackage") = some (.keyword "package", 7))
      (by decide : (0x20 : UInt8) ∈ breaks)
      false true x
    rw [hspace] at hword
    exact hword
  rw [hline, hfunc, hname, Option.map_map, Option.map_map, Option.map_map, hx, hv, hu] at hpackage
  exact hpackage

theorem lex_lbrack (s : Text) : lex false true ("[" ++ s) = (lex false false s).map ([.lbrack] ++ ·) :=
  lex_bracket (by decide) rfl false true s

/-- The frame in which parameters are read. -/
theorem frame_params : Frame "func(" ")" [.keyword "func", .lparen] fun _ => [.rparen, .semicolon false] where
  lex_opening := lex_func
  clean_opening := by decide
  closes := closing_cons (by decide) (by decide)
  lex_closing := frame_brackets.lex_closing
  lex_swallowed := frame_brackets.lex_swallowed
  clean_closing := frame_brackets.clean_closing

/-- The frame in which type parameters are read. -/
theorem frame_typeParams : Frame "package p\nfunc f[" "]() \x7b\x7d\n"
    [.keyword "package", .ident "p", .semicolon false, .keyword "func", .ident "f", .lbrack]
    fun _ => [.rbrack, .lparen, .rparen, .lbrace, .rbrace, .semicolon false] where
  lex_opening := lex_typeParams
  clean_opening := by decide
  closes := closing_cons (by decide) (by decide)
  lex_closing := fun o => by cases o <;> decide +kernel
  lex_swallowed := fun o => by cases o <;> decide +kernel
  clean_closing := by decide +kernel

/-- Type parameters in brackets, and the rest of the declaration. -/
theorem frame_typeBrackets : Frame "[" "]() \x7b\x7d\n" [.lbrack]
    fun _ => [.rbrack, .lparen, .rparen, .lbrace, .rbrace, .semicolon false] where
  lex_opening := lex_lbrack
  clean_opening := by decide
  closes := frame_typeParams.closes
  lex_closing := frame_typeParams.lex_closing
  lex_swallowed := frame_typeParams.lex_swallowed
  clean_closing := frame_typeParams.clean_closing

end Host

end MeaningForest

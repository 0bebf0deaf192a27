import MeaningForest.Proofs.FreeNames
import MeaningForest.Proofs.HostTokens

/-!
# Identifiers of host code

A word is a text of letters and digits, and an identifier is a word that starts with a letter and is not reserved.

* `Host.IsName.lex`: an identifier is cut as one token, whatever stands behind it that goes on with no word.
* `Host.isName_of_mem_tokens?`: the names that are cut from a text are identifiers.
* `Host.isName_freeName`: so are names that are chosen to be free.
-/

namespace MeaningForest.Host

open Text

/-! ### Words -/

/-- A text whose code points can all stand inside of a word. -/
inductive Word : Text → Prop where
  | nil : Word []
  | cons {a : UInt8} {t : Text} (ha : isWordPart (decode a t).scalar = true) (ht : Word (afterFirst a t)) :
    Word (a :: t)

section Parts

variable {a : UInt8} {t : Text}

theorem valid_of_isWordPart (h : isWordPart (decode a t).scalar = true) : (decode a t).valid = true := by
  by_contra hinvalid
  rw [scalar_eq_replacement (Bool.eq_false_iff.2 hinvalid)] at h
  exact absurd h (by decide +kernel)

theorem isWordPart_of_start {c : Nat} (h : isWordStart c = true) : isWordPart c = true := by
  rw [isWordPart, h, Bool.true_or]

theorem decode_append_part (h : isWordPart (decode a t).scalar = true) (w : Text) : decode a (t ++ w) = decode a t := by
  have hdecode := decode_take (valid_of_isWordPart h) (t.drop ((decode a t).size - 1) ++ w)
  rwa [← List.append_assoc, List.take_append_drop] at hdecode

theorem afterFirst_append_part (h : isWordPart (decode a t).scalar = true) (w : Text) :
    afterFirst a (t ++ w) = afterFirst a t ++ w := by
  have hle := decode_size_le a t
  rw [afterFirst, afterFirst, decode_append_part h, List.drop_append_of_le_length (by omega)]

end Parts

namespace Word

variable {u : Text}

theorem append (hu : Word u) {v : Text} (hv : Word v) : Word (u ++ v) := by
  induction hu with
  | nil => exact hv
  | @cons a t ha ht ih =>
    rw [List.cons_append]
    exact .cons (by rwa [decode_append_part ha]) (by rwa [afterFirst_append_part ha])

theorem wordLength_append (hu : Word u) (w : Text) : wordLength (u ++ w) = u.length + wordLength w := by
  induction hu with
  | nil => simp
  | @cons a t ha ht ih =>
    have hlength := length_afterFirst a t
    have hpos := decode_size_pos a t
    rw [List.cons_append, wordLength, decode_append_part ha, if_pos ha, afterFirst_append_part ha, ih, List.length_cons]
    omega

/-- A byte that can stand alone and is part of no word is not in one. -/
theorem notMem (hu : Word u) {c : UInt8} (hc : c < 0x80) (hpart : isWordPart c.toNat = false) : c ∉ u := by
  intro hmem
  obtain ⟨v, w, rfl⟩ := List.append_of_mem hmem
  clear hmem
  generalize ht : v ++ c :: w = t at hu
  induction hu generalizing v with
  | nil => simp at ht
  | @cons a t ha _ ih =>
    cases v with
    | nil =>
      obtain ⟨rfl, rfl⟩ := List.cons.inj ht
      have hdecode : decode c w = ⟨c.toNat, true, 1⟩ := if_pos hc
      rw [hdecode] at ha
      exact Bool.false_ne_true (hpart.symm.trans ha)
    | cons b v =>
      rw [List.cons_append] at ht
      obtain ⟨rfl, rfl⟩ := List.cons.inj ht
      have hle := decode_size_le b v
      refine ih (afterFirst b v) ?_
      rw [afterFirst, afterFirst, decode_append b v hc, List.drop_append_of_le_length (by omega)]

/-- Words stand in clean texts. -/
theorem isClean_append (hu : Word u) (w : Text) : isClean (u ++ w) = isClean w := by
  induction hu with
  | nil => rfl
  | @cons a t ha ht ih =>
    have hne : ∀ c, isWordPart c = false → (decode a t).scalar ≠ c := fun c hc h =>
      Bool.false_ne_true (hc.symm.trans (h ▸ ha))
    have hzero := hne 0 (by decide +kernel)
    have hbom := hne 0xfeff (by decide +kernel)
    have hfirst : ((decode a t).valid && (decode a t).scalar != 0 && (decode a t).scalar != 0xfeff) = true := by
      simp [valid_of_isWordPart ha, hzero, hbom]
    rw [List.cons_append, isClean, decodeAll, decode_append_part ha, afterFirst_append_part ha, List.all_cons, hfirst,
      Bool.true_and]
    exact ih

end Word

/-- What counts as the word at the start of a text is one. -/
theorem word_take (t : Text) : Word (t.take (wordLength t)) := by
  induction h : t.length using Nat.strong_induction_on generalizing t with
  | _ n ih =>
    subst h
    cases t with
    | nil =>
      rw [List.take_nil]
      exact .nil
    | cons a t =>
      rw [wordLength]
      split
      · rename_i ha
        have hpos := decode_size_pos a t
        have hle := decode_size_le a t
        obtain ⟨m, hm⟩ : ∃ m, (decode a t).size = m + 1 := ⟨(decode a t).size - 1, by omega⟩
        have hdecode : decode a (t.take (m + wordLength (afterFirst a t))) = decode a t := by
          rw [List.take_add]
          simpa [hm] using decode_take (valid_of_isWordPart ha) _
        have hafter : afterFirst a (t.take (m + wordLength (afterFirst a t))) =
            (afterFirst a t).take (wordLength (afterFirst a t)) := by
          rw [afterFirst, hdecode, hm, Nat.add_sub_cancel, List.drop_take, Nat.add_sub_cancel_left, afterFirst, hm,
            Nat.add_sub_cancel]
        rw [hm, Nat.add_right_comm, List.take_succ_cons]
        exact .cons (by rwa [hdecode]) (by rw [hafter]; exact ih _ (decode_shorter a t) _ rfl)
      · exact .nil

/-- A byte that is part of no word ends it. -/
theorem wordLength_cons_ascii {c : UInt8} (hc : c < 0x80) (hpart : isWordPart c.toNat = false) (w : Text) :
    wordLength (c :: w) = 0 := by
  rw [wordLength, decode, if_pos hc, if_neg (by simp [hpart])]

theorem word_ascii {u : Text} (h : u.all fun b => b < 0x80 && isWordPart b.toNat) : Word u := by
  induction u with
  | nil => exact .nil
  | cons b u ih =>
    rw [List.all_cons, Bool.and_eq_true, Bool.and_eq_true] at h
    obtain ⟨⟨hlt, hpart⟩, hrest⟩ := h
    have hdecode : decode b u = ⟨b.toNat, true, 1⟩ := if_pos (by simpa using hlt)
    exact .cons (by rwa [hdecode]) (by rw [afterFirst, hdecode]; exact ih hrest)

/-! ### Identifiers -/

/-- A word that is not reserved and does not start with a digit. -/
structure IsName (name : Text) : Prop where
  word : Word name
  start : ∃ b t, name = b :: t ∧ isWordStart (decode b t).scalar = true
  free : Token.ofWord name = .ident name

theorem ofWord_ident {t name : Text} (h : Token.ofWord t = .ident name) : t = name := by
  rw [Token.ofWord] at h
  split at h
  · cases h
  · exact Token.ident.inj h

theorem bracket?_ne_ident {b : UInt8} {name : Text} : bracket? b ≠ some (.ident name) := by
  unfold bracket?
  split <;> simp

theorem mark?_ne_ident {t name : Text} {n : Nat} : mark? t ≠ some (.ident name, n) := by
  intro h
  rw [mark?] at h
  split at h
  · cases h
  · cases h
  · split at h
    · rename_i k hk
      obtain ⟨rfl, -⟩ := Prod.mk.inj (Option.some.inj h)
      obtain ⟨b, -, hb⟩ := Option.bind_eq_some_iff.1 hk
      exact absurd hb bracket?_ne_ident
    · obtain ⟨m, -, hm⟩ := Option.map_eq_some_iff.1 h
      cases hm

theorem quoted?_ne_ident {b : UInt8} {t name : Text} {n : Nat} : quoted? b t ≠ some (.ident name, n) := by
  intro h
  simp only [quoted?, bind, pure] at h
  split at h
  · obtain ⟨_, -, h⟩ := Option.bind_eq_some_iff.1 h
    cases h
  · split at h
    · obtain ⟨_, -, h⟩ := Option.bind_eq_some_iff.1 h
      cases (Option.ite_none_right_eq_some.1 h).2
    · obtain ⟨_, -, h⟩ := Option.bind_eq_some_iff.1 h
      cases h

/-- What is cut as a name is an identifier. -/
theorem isName_of_token? {t name : Text} {n : Nat} (h : token? t = some (.ident name, n)) : IsName name := by
  cases t with
  | nil => cases h
  | cons b t =>
    simp only [token?, bind, pure] at h
    split at h
    · rename_i hstart
      obtain ⟨hname, -⟩ := Prod.mk.inj (Option.some.inj h)
      obtain rfl := ofWord_ident hname
      have hword := word_take (b :: t)
      have hpart := isWordPart_of_start hstart
      have hpos := decode_size_pos b t
      -- the word has at least the first code point
      obtain ⟨k, hk⟩ : ∃ k, wordLength (b :: t) = (decode b t).size - 1 + k + 1 :=
        ⟨wordLength (afterFirst b t), by rw [wordLength, if_pos hpart]; omega⟩
      refine ⟨hword, ⟨b, t.take ((decode b t).size - 1 + k), by rw [hk, List.take_succ_cons], ?_⟩, hname⟩
      rw [List.take_add, decode_take (valid_of_isWordPart hpart)]
      exact hstart
    · split at h
      · obtain ⟨_, -, h⟩ := Option.bind_eq_some_iff.1 h
        cases h
      · split at h
        · exact absurd h quoted?_ne_ident
        · exact absurd h mark?_ne_ident

theorem not_isWordStart_of_ascii {b : UInt8} (hb : b < 0x80) (hstart : isWordStart b.toNat = false) (t : Text) :
    ¬ isWordStart (decode b t).scalar = true := by
  rw [decode, if_pos hb, hstart]
  exact Bool.false_ne_true

namespace IsName

variable {name w : Text}

/-- An identifier is a token where no word goes on behind it. -/
theorem token? (h : IsName name) (hw : wordLength w = 0) : token? (name ++ w) = some (.ident name, name.length) := by
  obtain ⟨b, t, rfl, hstart⟩ := h.start
  have hlength : wordLength (b :: (t ++ w)) = (b :: t).length := by
    have hlength := h.word.wordLength_append w
    rwa [hw, Nat.add_zero] at hlength
  have htake : (b :: (t ++ w)).take (b :: t).length = b :: t := by
    rw [← List.cons_append, List.take_left]
  rw [List.cons_append, Host.token?, decode_append_part (isWordPart_of_start hstart), if_pos hstart]
  dsimp only
  rw [hlength, htake, h.free]

/-- Cutting a text that starts with an identifier. -/
theorem lex (h : IsName name) (hw : wordLength w = 0) (o f : Bool) :
    lex o f (name ++ w) = (Host.lex true false w).map (.ident name :: ·) := by
  have htoken := h.token? hw
  obtain ⟨b, t, rfl, hstart⟩ := h.start
  have hother : ∀ c ∈ [(0x20 : UInt8), 0x09, 0x0d, 0x0a, 0x2f], b ≠ c := by
    have hbytes : ∀ c ∈ [(0x20 : UInt8), 0x09, 0x0d, 0x0a, 0x2f], c < 0x80 ∧ isWordStart c.toNat = false :=
      List.all_iff_forall_prop.1 (by decide)
    rintro c hc rfl
    exact not_isWordStart_of_ascii (hbytes b hc).1 (hbytes b hc).2 t hstart
  have hblank : ¬ (b = 0x20 ∨ b = 0x09 ∨ b = 0x0d) := by
    simp [hother]
  rw [List.cons_append] at htoken ⊢
  rw [lex_token hblank (hother _ (by simp)) (fun hc => hother 0x2f (by simp) hc.1), htoken]
  simp [Token.endsLine]

theorem isClean_append (h : IsName name) (w : Text) : isClean (name ++ w) = isClean w := h.word.isClean_append w

theorem head?_ne {c : UInt8} (h : IsName name) (hc : c < 0x80) (hstart : isWordStart c.toNat = false) :
    name.head? ≠ some c := by
  obtain ⟨b, t, rfl, hb⟩ := h.start
  intro he
  obtain rfl := Option.some.inj he
  exact not_isWordStart_of_ascii hc hstart t hb

end IsName

theorem isName_iff {name : Text} : IsName name ↔ token? name = some (.ident name, name.length) := by
  refine ⟨fun h => ?_, isName_of_token?⟩
  have htoken := h.token? (w := []) (by simp [wordLength])
  rwa [List.append_nil] at htoken

instance (name : Text) : Decidable (IsName name) := decidable_of_iff _ isName_iff.symm

/-! ### Names in a text -/

/-- What holds of every token that is cut, and of the semicolon at the end of a line, holds of all tokens of a text. -/
theorem cut_forall {P : Token → Prop} (htoken : ∀ {t k n}, token? t = some (k, n) → P k) (hline : P (.semicolon false))
    {n : Nat} {o f : Bool} {t : Text} {ts : List Token} (h : cut n o f t = some ts) : ∀ k ∈ ts, P k := by
  induction n generalizing o f t ts with
  | zero => cases h
  | succ n ih =>
    have hcons : ∀ {k : Token} {o f : Bool} {u : Text}, P k → (cut n o f u).map (k :: ·) = some ts → ∀ k ∈ ts, P k := by
      intro k o f u hk h
      obtain ⟨us, hus, rfl⟩ := Option.map_eq_some_iff.1 h
      exact List.forall_mem_cons.2 ⟨hk, ih hus⟩
    cases t with
    | nil =>
      obtain rfl := Option.some.inj h
      cases o <;> simp [hline]
    | cons b t =>
      rw [cut] at h
      split at h
      · exact ih h
      split at h
      · split at h
        · exact hcons hline h
        · exact ih h
      split at h
      · exact ih (Option.ite_none_left_eq_some.1 h).2
      split at h
      · obtain ⟨size, -, h⟩ := Option.bind_eq_some_iff.1 h
        cases hfits : !commentFits ((t.drop 1).take (size - 2)) with
        | true =>
          rw [hfits] at h
          cases h
        | false =>
          rw [hfits, if_neg Bool.false_ne_true] at h
          dsimp only at h
          split at h
          · exact hcons hline h
          · exact ih h
      · obtain ⟨⟨k, size⟩, hk, h⟩ := Option.bind_eq_some_iff.1 h
        exact hcons (htoken hk) h

theorem isName_of_mem_tokens? {t : Text} {ts : List Token} (h : tokens? t = some ts) {name : Text}
    (hname : .ident name ∈ ts) : IsName name := by
  rw [tokens?] at h
  split at h
  · have hall : ∀ k ∈ ts, ∀ name, k = .ident name → IsName name := by
      refine cut_forall (fun htoken name hk => ?_) (fun name hk => ?_) h
      · subst hk
        exact isName_of_token? htoken
      · cases hk
    exact hall _ hname name rfl
  · cases h

/-! ### Names that are chosen -/

theorem word_ofNat (n : Nat) : Word (Text.ofNat n) := by
  have hdigits : ∀ d ∈ List.range' 0x30 10, isWordPart d = true := List.all_iff_forall_prop.1 (by decide +kernel)
  refine word_ascii (List.all_eq_true.2 fun b hb => ?_)
  obtain ⟨hlow, hhigh⟩ := digit_of_mem_ofNat hb
  have hascii : b < 0x80 := UInt8.lt_iff_toNat_lt.2 (Nat.lt_of_le_of_lt hhigh (by decide))
  have hpart := hdigits b.toNat (List.mem_range'_1.2 ⟨hlow, by omega⟩)
  simp [hascii, hpart]

/-- A base that no reserved word starts with gives an identifier, with and without a number. -/
theorem isName_freeName {base : Text} (hbase : IsName base) (hfree : ∀ w ∈ reservedWords, ¬ base <+: ofString w)
    (taken : List Text) : IsName (freeName base taken) := by
  obtain ⟨i, hi⟩ := exists_nameCandidate base taken
  rw [hi, nameCandidate]
  split
  · exact hbase
  · obtain ⟨b, t, rfl, hstart⟩ := hbase.start
    refine ⟨hbase.word.append (word_ofNat i), ⟨b, t ++ Text.ofNat i, rfl, ?_⟩, ?_⟩
    · rwa [decode_append_part (isWordPart_of_start hstart)]
    · have hnone : (reservedWords.find? fun w => ofString w == b :: t ++ Text.ofNat i) = none := by
        refine List.find?_eq_none.2 fun w hw he => hfree w hw ?_
        rw [eq_of_beq he]
        exact List.prefix_append _ _
      rw [Token.ofWord, hnone]

end MeaningForest.Host

import MeaningForest.Proofs.FreeNames
import MeaningForest.Token.Scan

/-!
# Names are words

A word is a text of letters, digits, underscores and bytes beyond ASCII.  The names that are made of a word are words.
-/

namespace MeaningForest

open Lexeme

namespace Text

/-- All bytes of a text are letters or digits. -/
def IsWord (t : Text) : Prop := ∀ b ∈ t, isWordPart b

instance : DecidablePred IsWord := fun t => List.decidableBAll (isWordPart · = true) t

theorem isWord_nil : IsWord [] := fun _ h => absurd h List.not_mem_nil

theorem isWord_cons {b : UInt8} {t : Text} (hb : isWordPart b) (ht : IsWord t) : IsWord (b :: t) :=
  List.forall_mem_cons.2 ⟨hb, ht⟩

theorem IsWord.append {s t : Text} (hs : IsWord s) (ht : IsWord t) : IsWord (s ++ t) := by
  intro b hb
  rcases List.mem_append.1 hb with hb | hb
  · exact hs b hb
  · exact ht b hb

/-! ### Code points of words -/

/-- A code point is beyond ASCII, a letter or a digit. -/
def isWordScalar (c : Nat) : Bool := 0x80 ≤ c || isWordPart c.toUInt8

theorem isWordPart_of_le {n : Nat} (hlow : 0x80 ≤ n) (hhigh : n < 0x100) : isWordPart n.toUInt8 := by
  have hn : (0x80 : UInt8) ≤ n.toUInt8 := by
    rw [UInt8.le_iff_toNat_le]
    simp only [Nat.toUInt8_eq, UInt8.toNat_ofNat']
    have : n % 2 ^ 8 = n := Nat.mod_eq_of_lt (by omega)
    rw [this]
    exact hlow
  simp [isWordPart, isWordStart, hn]

theorem isWord_encode {c : Nat} (h : isWordScalar c) : IsWord (encode c) := by
  unfold encode
  split
  · rename_i hc
    have hpart : isWordPart c.toUInt8 := by
      simpa [isWordScalar, Nat.not_le.2 hc] using h
    simpa [IsWord] using hpart
  · split
    · refine isWord_cons (isWordPart_of_le ?_ ?_) (isWord_cons (isWordPart_of_le ?_ ?_) isWord_nil)
      all_goals omega
    · split
      · decide
      · split
        · refine isWord_cons (isWordPart_of_le ?_ ?_) (isWord_cons (isWordPart_of_le ?_ ?_)
            (isWord_cons (isWordPart_of_le ?_ ?_) isWord_nil))
          all_goals omega
        · rename_i hscalar _
          have hmax : c ≤ 0x10ffff := by
            simp only [isScalar, Bool.not_eq_true', Bool.not_eq_false, Bool.or_eq_true, Bool.and_eq_true,
              decide_eq_true_eq] at hscalar
            omega
          refine isWord_cons (isWordPart_of_le ?_ ?_) (isWord_cons (isWordPart_of_le ?_ ?_)
            (isWord_cons (isWordPart_of_le ?_ ?_) (isWord_cons (isWordPart_of_le ?_ ?_) isWord_nil)))
          all_goals omega

theorem isWordScalar_of_mem {t : Text} (h : IsWord t) : ∀ c ∈ scalars t, isWordScalar c := by
  unfold scalars
  fun_induction decodeAll t with
  | case1 => simp
  | case2 a rest ih =>
    have hrest := ih fun b hb => h b (List.mem_cons_of_mem a (List.mem_of_mem_drop hb))
    rw [List.map_cons, List.forall_mem_cons]
    refine ⟨?_, hrest⟩
    by_cases ha : a < 0x80
    · have hscalar : (decode a rest).scalar = a.toNat := by simp [decode, ha]
      have hpart : isWordPart a := h a List.mem_cons_self
      simp [hscalar, isWordScalar, hpart]
    · have := le_scalar_decode (UInt8.not_lt.1 ha) rest
      simp [isWordScalar, this]

theorem isWordScalar_upper {c : Nat} (h : isWordScalar c) : isWordScalar (upper c) := by
  have hascii : ∀ c < 0x80, isWordScalar c → isWordScalar (upper c) := by decide +kernel
  have hshift : ∀ s ∈ upperShifts, s.span.last < 0x80 ∨ (0x80 : Int) ≤ s.span.first + s.offset ∨
      (s.span.first = s.span.last ∧ isWordScalar (s.span.first + s.offset).toNat) := by decide +kernel
  by_cases hc : c < 0x80
  · exact hascii c hc h
  · rw [upper, Shift.apply]
    split
    · rename_i s hs
      have hmem : s.span.first ≤ c ∧ c ≤ s.span.last := by
        have := List.find?_some hs
        simp only [Span.mem, Bool.and_eq_true, decide_eq_true_eq] at this
        exact this.1
      rcases hshift s (List.mem_of_find?_eq_some hs) with hlast | hfirst | ⟨heq, hword⟩
      · omega
      · have : 0x80 ≤ (c + s.offset).toNat := by omega
        simp [isWordScalar, this]
      · obtain rfl : c = s.span.first := by omega
        exact hword
    · exact h

theorem isWord_ofScalars {cs : List Nat} (h : ∀ c ∈ cs, isWordScalar c) : IsWord (ofScalars cs) := by
  intro b hb
  obtain ⟨c, hc, hb⟩ := List.mem_flatMap.1 hb
  exact isWord_encode (h c hc) b hb

theorem IsWord.capitalize {t : Text} (h : IsWord t) : IsWord t.capitalize := by
  have hscalars := isWordScalar_of_mem h
  cases heq : scalars t with
  | nil => exact capitalize_of_scalars_nil heq ▸ isWord_nil
  | cons c cs =>
    rw [heq, List.forall_mem_cons] at hscalars
    rw [capitalize_of_scalars_cons heq]
    exact isWord_ofScalars (List.forall_mem_cons.2 ⟨isWordScalar_upper hscalars.1, hscalars.2⟩)

theorem isWord_ofNat (n : Nat) : IsWord (ofNat n) := by
  intro b hb
  obtain ⟨c, hc, rfl⟩ := List.mem_map.1 hb
  have hdigit := Nat.isDigit_of_mem_toDigits (by decide) (by decide) hc
  simp only [Char.isDigit, Bool.and_eq_true, decide_eq_true_eq] at hdigit
  have hlow : 48 ≤ c.toNat := hdigit.1
  have hhigh : c.toNat ≤ 57 := hdigit.2
  have hpart : ∀ k < 58, 48 ≤ k → isWordPart k.toUInt8 := by decide
  exact hpart c.toNat (by omega) hlow

end Text

open Text

variable {m n : Text}

theorem isWord_freeName {base : Text} (h : IsWord base) (taken : List Text) : IsWord (freeName base taken) := by
  obtain ⟨i, hi⟩ := exists_nameCandidate base taken
  rw [hi, nameCandidate]
  split
  · exact h
  · exact h.append (isWord_ofNat i)

theorem isWord_ctorName (h : IsWord m) : IsWord (ctorName m) := IsWord.append (by decide) h.capitalize

theorem isWord_initName (h : IsWord m) : IsWord (initName m) := IsWord.append (by decide) h.capitalize

theorem isWord_newName (h : IsWord m) : IsWord (newName m) := IsWord.append (by decide) h.capitalize

theorem isWord_overrideName (hm : IsWord m) (hn : IsWord n) : IsWord (overrideName m n) :=
  (IsWord.append (by decide) hm.capitalize).append hn.capitalize

theorem isWord_setterName (h : IsWord m) : IsWord (setterName m) := by
  rw [setterName]
  split
  · exact IsWord.append (by decide) h.capitalize
  · exact IsWord.append (by decide) h.capitalize

end MeaningForest

import MeaningForest.Naming
import Mathlib.Data.List.Nodup
import Mathlib.Data.List.Perm.Subperm
import Mathlib.Order.Bounds.Basic

/-!
# Free names

A local name is chosen among a base and the base with a number.

* `nameCandidate_injective`: the candidates are distinct;
* `freeName_eq_candidate`: so there is a free one among one more candidates than taken names, and the first is chosen;
* `freeName_isLeast`: a search without a bound ends with the same name.
-/

namespace MeaningForest

private theorem byte_toNat {c : Char} (h : c.isDigit) : (Text.byte c).toNat = c.toNat := by
  simp only [Char.isDigit, Bool.and_eq_true, decide_eq_true_eq] at h
  have hle : c.toNat ≤ 57 := h.2
  simp only [Text.byte, Nat.toUInt8_eq, UInt8.toNat_ofNat']
  omega

/-- Different numbers have different numerals. -/
theorem ofNat_injective : Function.Injective Text.ofNat := by
  have hread : ∀ n, (Text.ofNat n).map (fun b => Char.ofNat b.toNat) = Nat.toDigits 10 n := by
    intro n
    rw [Text.ofNat, List.map_map, ← List.map_id (Nat.toDigits 10 n), List.map_map]
    refine List.map_congr_left fun c hc => ?_
    have hdigit := Nat.isDigit_of_mem_toDigits (by decide) (by decide) hc
    simp [byte_toNat hdigit]
  intro m n h
  have hdigits : Nat.toDigits 10 m = Nat.toDigits 10 n := by rw [← hread m, ← hread n, h]
  have hvalue := congrArg (Nat.ofDigitChars 10 · 0) hdigits
  simpa using hvalue

theorem ofNat_ne_nil (n : Nat) : Text.ofNat n ≠ [] := by
  simp [Text.ofNat, Nat.toDigits_ne_nil]

/-- Numerals are made of digits. -/
theorem digit_of_mem_ofNat {n : Nat} {b : UInt8} (h : b ∈ Text.ofNat n) : 0x30 ≤ b.toNat ∧ b.toNat ≤ 0x39 := by
  obtain ⟨c, hc, rfl⟩ := List.mem_map.1 h
  have hdigit := Nat.isDigit_of_mem_toDigits (by decide) (by decide) hc
  rw [byte_toNat hdigit]
  simp only [Char.isDigit, Bool.and_eq_true, decide_eq_true_eq] at hdigit
  exact hdigit

theorem nameCandidate_injective (base : Text) : Function.Injective (nameCandidate base) := by
  intro i j h
  rw [nameCandidate, nameCandidate] at h
  by_cases hi : i = 0 <;> by_cases hj : j = 0
  · rw [hi, hj]
  · rw [if_pos hi, if_neg hj] at h
    exact absurd (List.self_eq_append_right.1 h) (ofNat_ne_nil j)
  · rw [if_neg hi, if_pos hj] at h
    exact absurd (List.append_right_eq_self.1 h) (ofNat_ne_nil i)
  · rw [if_neg hi, if_neg hj] at h
    exact ofNat_injective (List.append_cancel_left h)

/-- A chosen name is the first of the candidates that is not taken. -/
theorem freeName_eq_candidate (base : Text) (taken : List Text) : ∃ i, freeName base taken = nameCandidate base i ∧
    nameCandidate base i ∉ taken ∧ ∀ j < i, nameCandidate base j ∈ taken := by
  rw [freeName, List.find?_map]
  cases h : (List.range (taken.length + 1)).find? ((!taken.contains ·) ∘ nameCandidate base) with
  | some i =>
    obtain ⟨hfree, -, hbefore⟩ := List.find?_range_eq_some.1 h
    exact ⟨i, rfl, by simpa using hfree, by simpa using hbefore⟩
  | none =>
    -- otherwise all candidates would be taken, and they are more than the taken names
    have hsub : (List.range (taken.length + 1)).map (nameCandidate base) ⊆ taken := by
      intro name hname
      obtain ⟨i, hi, rfl⟩ := List.mem_map.1 hname
      simpa using List.find?_eq_none.1 h i hi
    have hlen := (List.nodup_range.map (nameCandidate_injective base)).length_le_of_subset hsub
    rw [List.length_map, List.length_range] at hlen
    omega

/-- A chosen name is a candidate. -/
theorem exists_nameCandidate (base : Text) (taken : List Text) : ∃ i, freeName base taken = nameCandidate base i := by
  obtain ⟨i, hi, -⟩ := freeName_eq_candidate base taken
  exact ⟨i, hi⟩

theorem exists_freeName (base : Text) (taken : List Text) : ∃ s, freeName base taken = base ++ s := by
  obtain ⟨i, hi⟩ := exists_nameCandidate base taken
  rw [hi, nameCandidate]
  split
  · exact ⟨[], by simp⟩
  · exact ⟨_, rfl⟩

/-- What a chosen name has after its base begins with a digit. -/
theorem digit_of_freeName_eq {base t : Text} {names : List Text} {b : UInt8}
    (h : freeName base names = base ++ b :: t) : 0x30 ≤ b.toNat ∧ b.toNat ≤ 0x39 := by
  obtain ⟨i, hi⟩ := exists_nameCandidate base names
  rw [hi, nameCandidate] at h
  split at h
  · exact absurd (List.self_eq_append_right.1 h) (List.cons_ne_nil _ _)
  · exact digit_of_mem_ofNat (List.append_cancel_left h ▸ List.mem_cons_self ..)

/-- A chosen name is none of the names to avoid. -/
theorem freeName_notMem (base : Text) (taken : List Text) : freeName base taken ∉ taken := by
  obtain ⟨i, hi, hfree, -⟩ := freeName_eq_candidate base taken
  rw [hi]
  exact hfree

/-! ### The search -/

/-- The search for a free name, with no bound: while the name at hand is taken, the base with the next number is tried.
`FreeNameSearch base taken name next r` says that the search at `name`, with the number `next` to be tried after it,
ends with `r`. -/
inductive FreeNameSearch (base : Text) (taken : List Text) : (name : Text) → (next : Nat) → Text → Prop
  | free {name : Text} {next : Nat} (h : name ∉ taken) : FreeNameSearch base taken name next name
  | taken {name r : Text} {next : Nat} (h : name ∈ taken)
      (hr : FreeNameSearch base taken (base ++ Text.ofNat next) (next + 1) r) : FreeNameSearch base taken name next r

namespace FreeNameSearch

variable {base name r r' : Text} {taken : List Text} {next : Nat}

theorem unique (h : FreeNameSearch base taken name next r) (h' : FreeNameSearch base taken name next r') : r = r' := by
  induction h with
  | free hfree =>
    cases h' with
    | free _ => rfl
    | taken htaken _ => exact absurd htaken hfree
  | taken htaken _ ih =>
    cases h' with
    | free hfree => exact absurd htaken hfree
    | taken _ hr => exact ih hr

/-- From a candidate the search ends at the next one that is free. -/
theorem of_candidate {i n : Nat} (hi : i ≤ n) (hfree : nameCandidate base n ∉ taken)
    (hbefore : ∀ j < n, nameCandidate base j ∈ taken) :
    FreeNameSearch base taken (nameCandidate base i) (i + 1) (nameCandidate base n) := by
  induction hi using Nat.decreasingInduction with
  | self => exact .free hfree
  | of_succ j hj ih =>
    have hnext : nameCandidate base (j + 1) = base ++ Text.ofNat (j + 1) := if_neg (Nat.succ_ne_zero j)
    exact .taken (hbefore j hj) (hnext ▸ ih)

end FreeNameSearch

/-- The search for a free name ends, with the name that is chosen.  This is none of the taken names: the base if that
is free, and otherwise the base with the least number that gives a free name. -/
theorem freeName_isLeast (base : Text) (taken : List Text) :
    (∀ r, FreeNameSearch base taken base 1 r ↔ r = freeName base taken) ∧ freeName base taken ∉ taken ∧
      (base ∉ taken ∧ freeName base taken = base ∨ base ∈ taken ∧
        ∃ i, IsLeast {i | 1 ≤ i ∧ base ++ Text.ofNat i ∉ taken} i ∧ freeName base taken = base ++ Text.ofNat i) := by
  obtain ⟨i, hi, hfree, hbefore⟩ := freeName_eq_candidate base taken
  have hsearch : FreeNameSearch base taken base 1 (freeName base taken) := by
    rw [hi]
    exact FreeNameSearch.of_candidate (Nat.zero_le i) hfree hbefore
  refine ⟨fun r => ⟨fun hr => hr.unique hsearch, fun hr => hr ▸ hsearch⟩, freeName_notMem base taken, ?_⟩
  have hnumbered : ∀ {j}, 1 ≤ j → nameCandidate base j = base ++ Text.ofNat j := fun hj => if_neg (by omega)
  cases i with
  | zero => exact .inl ⟨hfree, hi⟩
  | succ i =>
    rw [hnumbered (Nat.succ_pos i)] at hi hfree
    refine .inr ⟨hbefore 0 (Nat.succ_pos i), i + 1, ⟨⟨Nat.succ_pos i, hfree⟩, ?_⟩, hi⟩
    rintro j ⟨hj, hjfree⟩
    by_contra hlt
    exact hjfree (hnumbered hj ▸ hbefore j (by omega))

end MeaningForest

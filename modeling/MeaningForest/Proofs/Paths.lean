import MeaningForest.Path
import Mathlib.Data.List.Basic

/-!
# Paths of generated files

The path of a generated file is that of its directory with more names (`Path.elements_join`), and its last name is the
stem of the declaration file, which is its name without the ending, with the suffix.  So two declaration files have one
path for what is generated from them exactly if they have one stem (`Path.join_output_eq_iff`).
-/

namespace MeaningForest

/-! ### Pieces -/

namespace Text

variable {sep : UInt8} {t u piece : Text}

theorem split_of_notMem (h : sep ∉ t) : split sep t = [t] := by
  induction t with
  | nil => rfl
  | cons b t ih =>
    obtain ⟨hb, ht⟩ := not_or.1 (mt List.mem_cons.2 h)
    rw [split, if_neg (Ne.symm hb), ih ht]

theorem notMem_of_mem_split (h : piece ∈ split sep t) : sep ∉ piece := by
  induction t generalizing piece with
  | nil =>
    obtain rfl := List.mem_singleton.1 h
    exact List.not_mem_nil
  | cons b t ih =>
    rw [split] at h
    split at h
    · rcases List.mem_cons.1 h with rfl | h
      · exact List.not_mem_nil
      · exact ih h
    · rename_i hb
      split at h
      · obtain rfl := List.mem_singleton.1 h
        simpa using Ne.symm hb
      · rename_i first pieces heq
        rw [heq] at ih
        rcases List.mem_cons.1 h with rfl | h
        · exact List.not_mem_cons_of_ne_of_not_mem (Ne.symm hb) (ih (List.mem_cons_self ..))
        · exact ih (List.mem_cons_of_mem _ h)

theorem split_append_sep (t u : Text) : split sep (t ++ sep :: u) = split sep t ++ split sep u := by
  induction t with
  | nil => simp [split]
  | cons b t ih =>
    rw [List.cons_append, split, split, ih]
    split
    · rfl
    · cases hs : split sep t with
      | nil => exact absurd hs (split_ne_nil sep t)
      | cons first pieces => rfl

/-- Bytes other than the separator go to the last piece. -/
theorem split_append_of_notMem (sep : UInt8) (t : Text) : ∃ front last, split sep t = front ++ [last] ∧
    ∀ u, sep ∉ u → split sep (t ++ u) = front ++ [last ++ u] := by
  induction t with
  | nil => exact ⟨[], [], rfl, fun u hu => split_of_notMem hu⟩
  | cons b t ih =>
    obtain ⟨front, last, hfront, happend⟩ := ih
    by_cases hb : b = sep
    · refine ⟨[] :: front, last, by rw [split, if_pos hb, hfront]; rfl, fun u hu => ?_⟩
      rw [List.cons_append, split, if_pos hb, happend u hu]
      rfl
    · cases front with
      | nil =>
        refine ⟨[], b :: last, by rw [split, if_neg hb, hfront]; rfl, fun u hu => ?_⟩
        rw [List.cons_append, split, if_neg hb, happend u hu]
        rfl
      | cons first front =>
        refine ⟨(b :: first) :: front, last, by rw [split, if_neg hb, hfront]; rfl, fun u hu => ?_⟩
        rw [List.cons_append, split, if_neg hb, happend u hu]
        rfl

theorem split_join {pieces : List Text} (hne : pieces ≠ []) (h : ∀ p ∈ pieces, sep ∉ p) :
    split sep (join [sep] pieces) = pieces := by
  induction pieces with
  | nil => exact absurd rfl hne
  | cons p pieces ih =>
    have hp := split_of_notMem (h p (List.mem_cons_self ..))
    by_cases hlast : pieces = []
    · rw [hlast]
      exact hp
    · rw [join_cons _ _ hlast, List.append_assoc, List.singleton_append, split_append_sep, hp,
        ih hlast fun q hq => h q (List.mem_cons_of_mem _ hq)]
      rfl

theorem split_injective (sep : UInt8) : Function.Injective (split sep) := fun t u h => by
  rw [← join_split sep t, h, join_split]

end Text

namespace Path

/-! ### Names -/

/-- Every element of a path is a name. -/
def Named (p : Text) : Prop := ∀ e ∈ elements p, isName e

theorem isName_append (e : Text) {s : Text} (h : isName s) : isName (e ++ s) := by
  simp only [isName, Bool.and_eq_true, Bool.not_eq_true', bne_iff_ne, ne_eq] at h ⊢
  obtain ⟨⟨hempty, hhere⟩, habove⟩ := h
  have hs : s ≠ [] := by simpa using hempty
  have hsuffix : s <:+ e ++ s := List.suffix_append e s
  refine ⟨⟨by simp [hs], fun heq => ?_⟩, fun heq => ?_⟩
  · rw [heq, here] at hsuffix
    rcases List.suffix_cons_iff.1 hsuffix with rfl | h
    · exact hhere rfl
    · exact hs (List.suffix_nil.1 h)
  · rw [heq, above] at hsuffix
    rcases List.suffix_cons_iff.1 hsuffix with rfl | h
    · exact habove rfl
    · rcases List.suffix_cons_iff.1 h with rfl | h
      · exact hhere rfl
      · exact hs (List.suffix_nil.1 h)

theorem ne_nil_of_isName {e : Text} (h : isName e) : e ≠ [] := by
  rintro rfl
  cases h

/-! ### Joins -/

theorem mem_step {absolute : Bool} {done : List Text} {x e : Text} (h : e ∈ step absolute done x) :
    e ∈ done ∨ (e ≠ [] ∧ e = x) ∨ e = above := by
  rw [step.eq_def] at h
  split at h
  · exact .inl h
  · rename_i hskip
    split at h
    · rcases List.mem_cons.1 h with rfl | h
      · refine .inr (.inl ⟨?_, rfl⟩)
        rintro rfl
        simp at hskip
      · exact .inl h
    · split at h
      · split at h
        · exact .inl h
        · exact .inr (.inr (List.mem_singleton.1 h))
      · split at h
        · rcases List.mem_cons.1 h with rfl | h
          · exact .inr (.inr rfl)
          · exact .inl h
        · exact .inl (List.mem_cons_of_mem _ h)

theorem mem_foldl_step {absolute : Bool} {es done : List Text} {e : Text} (h : e ∈ es.foldl (step absolute) done) :
    e ∈ done ∨ e ≠ [] ∧ (e ∈ es ∨ e = above) := by
  induction es generalizing done with
  | nil => exact .inl h
  | cons x es ih =>
    rcases ih h with h | ⟨hne, h⟩
    · rcases mem_step h with h | ⟨hne, rfl⟩ | rfl
      · exact .inl h
      · exact .inr ⟨hne, .inl (List.mem_cons_self ..)⟩
      · exact .inr ⟨by decide, .inr rfl⟩
    · exact .inr ⟨hne, h.imp_left (List.mem_cons_of_mem _)⟩

theorem mem_reduce {absolute : Bool} {es : List Text} {e : Text} (h : e ∈ reduce absolute es) :
    e ≠ [] ∧ (e ∈ es ∨ e = above) := by
  rcases mem_foldl_step (List.mem_reverse.1 h) with h | h
  · exact absurd h List.not_mem_nil
  · exact h

theorem reduce_append_names (absolute : Bool) (es : List Text) {names : List Text} (h : ∀ e ∈ names, isName e) :
    reduce absolute (es ++ names) = reduce absolute es ++ names := by
  rw [reduce, List.foldl_append, foldl_step_names absolute names _ h, List.reverse_append, List.reverse_reverse]
  rfl

/-- The elements before those of a path that is joined to a directory. -/
def lead (dir : Text) : List Text :=
  (if isAbsolute dir then [[]] else []) ++ reduce (isAbsolute dir) (elements dir)

theorem join_of_named (dir : Text) {p : Text} (h : Named p) :
    join dir p = ofElements (isAbsolute dir) (reduce (isAbsolute dir) (elements dir) ++ elements p) := by
  have hp : p ≠ [] := by
    rintro rfl
    exact absurd (h [] (List.mem_singleton_self _)) (by decide)
  rw [join]
  by_cases hdir : dir = []
  · have habsolute : isAbsolute p = false := by
      obtain ⟨b, t, rfl⟩ := List.exists_cons_of_ne_nil hp
      rw [isAbsolute, List.head?_cons]
      by_contra hb
      obtain rfl : b = slash := by simpa using hb
      exact absurd (h [] (by simp [elements, Text.split])) (by decide)
    have hreduce : reduce (isAbsolute []) (elements []) = [] := rfl
    have hempty : isAbsolute [] = false := rfl
    rw [hdir, hreduce, hempty, if_neg (by simp), if_pos (by simpa using hp), clean, habsolute, reduce_names _ _ h]
    rfl
  · have habsolute : isAbsolute (dir ++ slash :: p) = isAbsolute dir := by
      rw [isAbsolute, List.head?_append_of_ne_nil _ hdir]
      rfl
    have helements : elements (dir ++ slash :: p) = elements dir ++ elements p := Text.split_append_sep dir p
    simp [hdir, clean, habsolute, helements, reduce_append_names _ _ h]

theorem notMem_lead {dir e : Text} (h : e ∈ reduce (isAbsolute dir) (elements dir)) : slash ∉ e := by
  rcases (mem_reduce h).2 with h | rfl
  · exact Text.notMem_of_mem_split h
  · decide

theorem elements_ofElements (absolute : Bool) {es : List Text} (hne : es ≠ []) (h : ∀ e ∈ es, slash ∉ e) :
    elements (ofElements absolute es) = (if absolute then [[]] else []) ++ es := by
  have hsplit : elements (Text.join [slash] es) = es := Text.split_join hne h
  cases absolute with
  | false => simp [ofElements, hne, hsplit]
  | true =>
    rw [ofElements, if_pos rfl, elements, Text.split, if_pos rfl]
    exact congrArg ([] :: ·) hsplit

/-- A path of names is found below its directory. -/
theorem elements_join (dir : Text) {p : Text} (h : Named p) : elements (join dir p) = lead dir ++ elements p := by
  rw [join_of_named dir h, elements_ofElements, lead, List.append_assoc]
  · simp [elements, Text.split_ne_nil]
  · intro e he
    rcases List.mem_append.1 he with he | he
    · exact notMem_lead he
    · exact Text.notMem_of_mem_split he

theorem isAbsolute_ofElements (absolute : Bool) {es : List Text} (h : ∀ e ∈ es, e ≠ [] ∧ slash ∉ e) :
    isAbsolute (ofElements absolute es) = absolute := by
  cases absolute with
  | true => rfl
  | false =>
    cases es with
    | nil => rfl
    | cons e es =>
      -- the first element is not empty and has no slash
      obtain ⟨hne, hslash⟩ := h e (List.mem_cons_self ..)
      obtain ⟨b, t, rfl⟩ := List.exists_cons_of_ne_nil hne
      have hb : b ≠ slash := fun heq => hslash (heq ▸ List.mem_cons_self ..)
      rw [ofElements, if_neg (by simp), if_neg (by simp), isAbsolute]
      cases es with
      | nil => simpa [Text.join] using hb
      | cons x es => simpa [Text.join_cons] using hb

theorem isAbsolute_join (dir : Text) {p : Text} (h : Named p) : isAbsolute (join dir p) = isAbsolute dir := by
  rw [join_of_named dir h]
  refine isAbsolute_ofElements _ fun e he => ?_
  rcases List.mem_append.1 he with he | he
  · exact ⟨(mem_reduce he).1, notMem_lead he⟩
  · exact ⟨ne_nil_of_isName (h e he), Text.notMem_of_mem_split he⟩

/-! ### Stems -/

/-- A path without the ending of a declaration file. -/
def stem (p : Text) : Text :=
  match endings.find? fun e => Text.endsWith p e with
  | some e => p.take (p.length - e.length)
  | none => p

theorem output_eq (p suffix : Text) : output p suffix = stem p ++ suffix := by
  rw [output, stem]
  cases endings.find? fun e => Text.endsWith p e with
  | none => rfl
  | some e => rfl

/-- The ending is a part of the last element. -/
theorem exists_stem_append (p : Text) : ∃ e, slash ∉ e ∧ p = stem p ++ e := by
  unfold stem
  split
  · rename_i e he
    have hslash : ∀ e ∈ endings, slash ∉ e := by decide
    refine ⟨e, hslash e (List.mem_of_find?_eq_some he), ?_⟩
    obtain ⟨front, rfl⟩ : e <:+ p := by simpa [Text.endsWith] using List.find?_some he
    simp
  · exact ⟨[], List.not_mem_nil, (List.append_nil p).symm⟩

theorem named_output {p suffix : Text} (h : Named p) (hsuffix : isName suffix) (hslash : slash ∉ suffix) :
    Named (output p suffix) := by
  obtain ⟨e, he, hp⟩ := exists_stem_append p
  obtain ⟨front, last, -, happend⟩ := Text.split_append_of_notMem slash (stem p)
  have hfront : ∀ x ∈ front, isName x := by
    intro x hx
    refine h x ?_
    rw [elements, hp, happend e he]
    exact List.mem_append_left _ hx
  rw [Named, output_eq, elements, happend suffix hslash]
  intro x hx
  rcases List.mem_append.1 hx with hx | hx
  · exact hfront x hx
  · obtain rfl := List.mem_singleton.1 hx
    exact isName_append last hsuffix

/-- Two declaration files have one path for what is generated from them exactly if they have one stem. -/
theorem join_output_eq_iff (dir : Text) {p q suffix : Text} (hp : Named p) (hq : Named q) (hsuffix : isName suffix)
    (hslash : slash ∉ suffix) : join dir (output p suffix) = join dir (output q suffix) ↔ stem p = stem q := by
  constructor
  · intro h
    have helements := congrArg elements h
    rw [elements_join dir (named_output hp hsuffix hslash), elements_join dir
      (named_output hq hsuffix hslash)] at helements
    have houtput := Text.split_injective slash (List.append_cancel_left helements)
    rw [output_eq, output_eq] at houtput
    exact List.append_cancel_right houtput
  · intro h
    rw [output_eq, output_eq, h]

end Path

end MeaningForest

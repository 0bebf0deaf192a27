import MeaningForest.Proofs.Content

/-!
# Texts within generated lines

A line of generated code has texts from a declaration between texts of the generator (`Code.Splice`).  The generator's
texts are inert and end with a break, and so do not run into what comes after them.  If an inserted text is complete,
then it does not run into what comes after it either; if it is not, it swallows the generator's text.  So the line is
read piece by piece exactly if all inserted texts are complete (`Code.Splice.intact_iff`).
-/

namespace MeaningForest

open Lexeme

namespace Lexeme

variable {g v : Text}

instance : DecidablePred Inert := fun v => List.decidableBAll (· ∉ marks) v

theorem Inert.append (hg : Inert g) (hv : Inert v) : Inert (g ++ v) := by
  intro b hb
  rcases List.mem_append.1 hb with hb | hb
  · exact hg b hb
  · exact hv b hb

theorem inert_append_iff : Inert (g ++ v) ↔ Inert g ∧ Inert v :=
  ⟨fun h => ⟨fun b hb => h b (List.mem_append_left _ hb), fun b hb => h b (List.mem_append_right _ hb)⟩,
    fun h => h.1.append h.2⟩

theorem Inert.plain {b : UInt8} {t : Text} (h : Inert (b :: t)) : Plain b t := by
  have hb := h b List.mem_cons_self
  refine ⟨fun hq => hb ?_, fun hc => hb ?_⟩
  · simp only [quotes, List.mem_cons, List.not_mem_nil, or_false] at hq
    rcases hq with rfl | rfl | rfl <;> decide
  · rw [hc.1]
    decide

theorem Inert.complete (h : Inert v) : v.Complete := by
  induction v using Text.scan_induction with
  | nil => exact .nil
  | gap b t hgap ih => exact .gap hgap (ih fun c hc => h c (List.mem_cons_of_mem b hc))
  | zero t => exact absurd (by decide) (h 0 List.mem_cons_self)
  | cut b t hgap hb hm =>
    rw [measure_of_plain h.plain] at hm
    repeat' split at hm
    all_goals cases hm
  | lexeme b t kind n hgap hb hm ih =>
    refine .lexeme hgap hb hm ⟨hb, ends_of_plain h.plain⟩ (ih fun c hc => h c ?_)
    exact List.mem_cons_of_mem b (List.mem_of_mem_drop hc)

/-- A break is white space or a token of its own. -/
theorem content?_break {c : UInt8} (hc : c ∈ breaks) :
    ∃ ts, (isGap c = false → ts ≠ []) ∧ ∀ t, Text.content? (c :: t) = (Text.content? t).map (ts ++ ·) := by
  cases hgap : isGap c with
  | true => exact ⟨[], by simp, fun t => by simp [Text.content?_gap hgap]⟩
  | false =>
    have hsingle : ∀ t, measure c t = some (single c, 0) ∧ (single c).isComment = false ∧ c ≠ 0 := by
      intro t
      simp only [breaks, List.mem_cons, List.not_mem_nil, or_false] at hc
      rcases hc with rfl | rfl | rfl | rfl | rfl | rfl | rfl | rfl | rfl | rfl | rfl | rfl
      all_goals exact ⟨rfl, rfl, by decide⟩
    obtain ⟨-, hkind, hzero⟩ := hsingle []
    have hpush : push (single c) [c] = ((single c, [c]) :: ·) := funext fun ts => if_neg (by simp [hkind])
    refine ⟨[(single c, [c])], by simp, fun t => ?_⟩
    rw [Text.content?_cons hgap hzero, (hsingle t).1]
    simp [hpush]

/-- A text ends with a break. -/
def Ended (g : Text) : Prop := ∃ c ∈ g.getLast?, c ∈ breaks

instance : DecidablePred Ended := fun g => Option.decidableExistsMem (p := (· ∈ breaks)) g.getLast?

theorem Ended.append (hv : Ended v) (g : Text) : Ended (g ++ v) := by
  obtain ⟨c, hc, hbreak⟩ := hv
  refine ⟨c, ?_, hbreak⟩
  rw [Option.mem_def, List.getLast?_append, Option.mem_def.1 hc]
  rfl

theorem Inert.content?_append (h : Inert g) (hend : Ended g) :
    ∃ ts, Text.content? g = some ts ∧ ∀ t, Text.content? (g ++ t) = (Text.content? t).map (ts ++ ·) := by
  obtain ⟨c, hlast, hc⟩ := hend
  obtain ⟨u, rfl⟩ := List.getLast?_eq_some_iff.1 hlast
  obtain ⟨cs, -, hbreak⟩ := content?_break hc
  have hu : Inert u := fun b hb => h b (List.mem_append_left _ hb)
  have happly : ∀ t, ∃ us, Text.content? u = some us ∧
      Text.content? (u ++ [c] ++ t) = (Text.content? t).map (us ++ cs ++ ·) := by
    intro t
    obtain ⟨us, hus, happend⟩ := hu.complete.content?_append (v := c :: t) (by simpa [Apart] using hc)
    refine ⟨us, hus, ?_⟩
    rw [List.append_assoc, List.singleton_append, happend, hbreak]
    simp [Function.comp_def]
  obtain ⟨us, hus, hnil⟩ := happly []
  refine ⟨us ++ cs, by simpa using hnil, fun t => ?_⟩
  obtain ⟨us', hus', ht⟩ := happly t
  obtain rfl := Option.some.inj (hus.symm.trans hus')
  exact ht

/-- A text of the generator after an inserted one: it begins and ends with breaks and has a token. -/
structure Glue (g : Text) : Prop where
  inert : Inert g
  front : ∃ c ∈ (g.dropWhile isGap).head?, c ∈ breaks
  back : Ended g

instance : DecidablePred Glue := fun g =>
  letI := Option.decidableExistsMem (p := (· ∈ breaks)) (g.dropWhile isGap).head?
  decidable_of_iff (Inert g ∧ (∃ c ∈ (g.dropWhile isGap).head?, c ∈ breaks) ∧ Ended g)
    ⟨fun h => ⟨h.1, h.2.1, h.2.2⟩, fun h => ⟨h.inert, h.front, h.back⟩⟩

theorem Glue.apart (h : Glue g) (v : Text) : Apart (g ++ v) := by
  obtain ⟨c, hc, hbreak⟩ := h.front
  cases g with
  | nil => simp at hc
  | cons b g =>
    intro d hd
    obtain rfl := Option.some.inj hd
    by_cases hgap : isGap b
    · simp only [isGap, Bool.or_eq_true, beq_iff_eq] at hgap
      rcases hgap with ((rfl | rfl) | rfl) | rfl <;> decide
    · rw [List.dropWhile_cons_of_neg hgap] at hc
      exact Option.some.inj hc ▸ hbreak

theorem Glue.append (hg : Glue g) (hv : Inert v) (hend : Ended v) : Glue (g ++ v) := by
  obtain ⟨c, hc, hbreak⟩ := hg.front
  refine ⟨hg.inert.append hv, ⟨c, ?_, hbreak⟩, hend.append g⟩
  have hne : g.dropWhile isGap ≠ [] := by
    intro h
    rw [h] at hc
    cases hc
  rw [List.dropWhile_append, if_neg (by simpa using hne), List.head?_append_of_ne_nil _ hne]
  exact hc

theorem Glue.content_ne_nil (h : Glue g) {ts : List (TokenKind × Text)} (hts : Text.content? g = some ts) :
    ts ≠ [] := by
  obtain ⟨c, hc, hbreak⟩ := h.front
  clear h
  induction g with
  | nil => simp at hc
  | cons b g ih =>
    by_cases hgap : isGap b
    · rw [List.dropWhile_cons_of_pos hgap] at hc
      exact ih ((Text.content?_gap hgap g).symm.trans hts) hc
    · rw [List.dropWhile_cons_of_neg hgap] at hc
      obtain rfl : b = c := Option.some.inj hc
      obtain ⟨bs, hbs, happend⟩ := content?_break hbreak
      rw [happend] at hts
      obtain ⟨rest, -, rfl⟩ := Option.map_eq_some_iff.1 hts
      simp [hbs (by simpa using hgap)]

end Lexeme

namespace Code

/-! ### Pieces -/

/-- Texts are read one by one: their tokens are those of the texts in turn. -/
def Sequential (pieces : List Text) : Prop :=
  ∃ ts, pieces.mapM Text.content? = some ts ∧ Text.content? pieces.flatten = some ts.flatten

instance : DecidablePred Sequential := fun pieces =>
  inferInstanceAs (Decidable (∃ ts ∈ pieces.mapM Text.content?, Text.content? pieces.flatten = some ts.flatten))

/-- A first text that keeps apart from the others may be left out. -/
theorem sequential_cons {t : Text} {ts : List (TokenKind × Text)} {pieces : List Text}
    (ht : Text.content? t = some ts)
    (happend : Text.content? (t ++ pieces.flatten) = (Text.content? pieces.flatten).map (ts ++ ·)) :
    Sequential (t :: pieces) ↔ Sequential pieces := by
  unfold Sequential
  rw [List.flatten_cons, happend, List.mapM_cons, ht]
  constructor
  · rintro ⟨all, hall, hcontent⟩
    obtain ⟨rest, hrest, rfl⟩ : ∃ rest, pieces.mapM Text.content? = some rest ∧ ts :: rest = all := by
      simpa [Option.bind_eq_some_iff] using hall
    obtain ⟨x, hx, heq⟩ := Option.map_eq_some_iff.1 hcontent
    exact ⟨rest, hrest, hx.trans (congrArg some (List.append_cancel_left heq))⟩
  · rintro ⟨rest, hrest, hcontent⟩
    exact ⟨ts :: rest, by rw [hrest]; rfl, by rw [hcontent]; rfl⟩

/-- A text that is not complete is not read apart from what comes after it. -/
theorem not_sequential {f g : Text} (hf : ¬ f.Complete) (hg : Glue g) : ¬ Sequential [f, g] := by
  rintro ⟨ts, hts, hcontent⟩
  obtain ⟨fs, gs, hfs, hgs, rfl⟩ : ∃ fs gs, Text.content? f = some fs ∧ Text.content? g = some gs ∧ [fs, gs] = ts := by
    simpa [Option.bind_eq_some_iff] using hts
  have hapart : Apart g := by simpa using hg.apart []
  exact Text.content?_append_ne hf hapart hg.inert hfs (hg.content_ne_nil hgs) (by simpa using hcontent)

/-! ### Lines -/

/-- A line of code that begins with a text of the generator; after it come inserted texts, each with the text of the
generator that follows it. -/
structure Splice where
  head : Text
  parts : List (Text × Text)
  deriving DecidableEq, Repr

namespace Splice

/-- The texts of a line in turn, up to some of the inserted ones. -/
def upTo (s : Splice) (parts : List (Text × Text)) : List Text := s.head :: parts.flatMap fun p => [p.1, p.2]

def text (s : Splice) : Text := (s.upTo s.parts).flatten

theorem text_eq (s : Splice) : s.text = s.head ++ s.parts.flatMap fun p => p.1 ++ p.2 := by
  rw [text, upTo, List.flatten_cons]
  congr 1
  induction s.parts with
  | nil => rfl
  | cons p parts ih => simp [ih]

/-- The texts that come from a declaration. -/
def inserted (s : Splice) : List Text := s.parts.map (·.1)

/-- No inserted text runs into the text after it: up to there the line is read text by text. -/
def Intact (s : Splice) : Prop := ∀ parts, parts <+: s.parts → Sequential (s.upTo parts)

instance : DecidablePred Intact := fun s =>
  decidable_of_iff (∀ parts ∈ s.parts.inits, Sequential (s.upTo parts)) (by simp only [List.mem_inits, Intact])

/-- The texts of the generator keep apart from others. -/
structure Sound (s : Splice) : Prop where
  inert : Inert s.head
  ended : Ended s.head
  glue : ∀ p ∈ s.parts, Glue p.2

theorem sequential_iff {parts : List (Text × Text)} (h : ∀ p ∈ parts, Glue p.2) :
    (∀ done, done <+: parts → Sequential (done.flatMap fun p => [p.1, p.2])) ↔ ∀ p ∈ parts, p.1.Complete := by
  have hnil : Sequential [] := ⟨[], rfl, Text.content?_nil⟩
  induction parts with
  | nil => simpa using hnil
  | cons p parts ih =>
    obtain ⟨f, g⟩ := p
    have hg : Glue g := h (f, g) List.mem_cons_self
    have hrest := ih fun q hq => h q (List.mem_cons_of_mem _ hq)
    by_cases hf : f.Complete
    · -- both texts of the first part may be left out
      have hskip : ∀ done : List (Text × Text),
          Sequential (f :: g :: done.flatMap fun p => [p.1, p.2]) ↔ Sequential (done.flatMap fun p => [p.1, p.2]) := by
        intro done
        obtain ⟨fs, hfs, hfappend⟩ := hf.content?_append (hg.apart (done.flatMap fun p => [p.1, p.2]).flatten)
        obtain ⟨gs, hgs, hgappend⟩ := hg.inert.content?_append hg.back
        refine Iff.trans (sequential_cons hfs ?_) (sequential_cons hgs (hgappend _))
        exact hfappend
      rw [List.forall_mem_cons, and_iff_right hf]
      refine Iff.trans ?_ hrest
      constructor
      · exact fun hall done hdone => (hskip done).1 (hall _ ((List.cons_prefix_cons).2 ⟨rfl, hdone⟩))
      · intro hall done hdone
        cases done with
        | nil => exact hnil
        | cons q done =>
          obtain ⟨rfl, hprefix⟩ := List.cons_prefix_cons.1 hdone
          exact (hskip done).2 (hall done hprefix)
    · refine iff_of_false (fun hall => ?_) fun hall => hf (hall (f, g) List.mem_cons_self)
      exact not_sequential hf hg (hall [(f, g)] (List.cons_prefix_cons.2 ⟨rfl, List.nil_prefix⟩))

/-- The texts of a line are read one by one exactly if all inserted ones are complete. -/
theorem intact_iff {s : Splice} (h : s.Sound) : s.Intact ↔ ∀ f ∈ s.inserted, f.Complete := by
  obtain ⟨hs, hhead, happend⟩ := h.inert.content?_append h.ended
  have hskip : ∀ parts, Sequential (s.upTo parts) ↔ Sequential (parts.flatMap fun p => [p.1, p.2]) :=
    fun parts => sequential_cons hhead (happend _)
  simp only [Intact, hskip, sequential_iff h.glue, inserted, List.forall_mem_map]

end Splice

end Code

end MeaningForest

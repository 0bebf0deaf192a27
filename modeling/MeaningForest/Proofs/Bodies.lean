import MeaningForest.Code.Line
import MeaningForest.Proofs.Captured

/-!
# Bodies of host code

A body is written line by line, without the blanks at the ends of its lines (`Text.tidy`).  Blanks between tokens and in
comments do not matter, but a literal may hold blanks at the end of a line: a raw literal over several lines, or one
between quotes that the line feed cuts off.  What is written for a body has the content of the body exactly if there is
no such literal (`Text.content?_tidy_iff`).
-/

namespace MeaningForest

open Lexeme

variable {lang : Language}

namespace Text

/-- The blanks that are dropped at the end of a line. -/
def isTrailing (b : UInt8) : Bool := b == 0x20 || b == 0x09 || b == 0x0d

/-- Only blanks are left on the line. -/
def endsLine (t : Text) : Bool := (t.takeWhile (· != 0x0a)).all isTrailing

/-- A text without blanks at the ends of its lines, and with a line feed after the last. -/
def tidy : Text → Text
  | [] => [0x0a]
  | b :: t => if isTrailing b && endsLine t then tidy t else b :: tidy t

theorem trimEndWhile_cons (p : UInt8 → Bool) (b : UInt8) (t : Text) :
    trimEndWhile p (b :: t) = if p b && t.all p then [] else b :: trimEndWhile p t := by
  have hempty : (t.reverse.dropWhile p).isEmpty = t.all p := by
    rw [Bool.eq_iff_iff, List.isEmpty_iff, List.dropWhile_eq_nil_iff]
    simp
  unfold trimEndWhile
  rw [List.reverse_cons, List.dropWhile_append, hempty]
  cases hall : t.all p with
  | true =>
    have hnil : t.reverse.dropWhile p = [] := by simpa [hall] using hempty
    cases hb : p b with
    | true => simp [hb]
    | false => simp [hb, hnil]
  | false => simp

theorem lines_eq_cons (t : Text) : ∃ rest, lines t = t.takeWhile (· != 0x0a) :: rest := by
  induction t with
  | nil => exact ⟨[], rfl⟩
  | cons b t ih =>
    obtain ⟨rest, hrest⟩ := ih
    unfold lines at hrest ⊢
    rw [split]
    split
    · rename_i hb
      exact ⟨_, by rw [hb]; rfl⟩
    · rename_i hb
      exact ⟨rest, by rw [hrest, List.takeWhile_cons_of_pos (by simpa using hb)]⟩

theorem flatMap_lines (t : Text) : (lines t).flatMap (fun l => trimEndWhile isTrailing l ++ [0x0a]) = tidy t := by
  induction t with
  | nil => rfl
  | cons b t ih =>
    obtain ⟨rest, hrest⟩ := lines_eq_cons t
    rw [tidy]
    by_cases hb : b = 0x0a
    · subst hb
      have hlines : lines (0x0a :: t) = [] :: lines t := rfl
      rw [hlines, List.flatMap_cons, ih]
      rfl
    · have hlines : lines (b :: t) = (b :: t.takeWhile (· != 0x0a)) :: rest := by
        unfold lines at hrest ⊢
        rw [split, if_neg hb, hrest]
      rw [hlines, List.flatMap_cons, trimEndWhile_cons, ← ih, hrest, List.flatMap_cons, endsLine]
      split
      · rename_i hdrop
        have hnil : trimEndWhile isTrailing (t.takeWhile (· != 0x0a)) = [] := by
          unfold trimEndWhile
          rw [List.reverse_eq_nil_iff, List.dropWhile_eq_nil_iff]
          simpa using (Bool.and_eq_true_iff.1 hdrop).2
        rw [hnil]
      · rfl

end Text

/-- What is written for a body. -/
theorem Code.render_bodyLines {body : Text} (h : body.isBlank = false) : render (bodyLines body) = body.tidy := by
  have hline : ∀ l : Text, (line l).render = l ++ [0x0a] := by
    intro l
    cases l <;> rfl
  rw [← Text.flatMap_lines, bodyLines, h, render]
  simp only [Bool.false_eq_true, if_false, List.flatMap_map, hline]
  rfl

namespace Text

variable {b : UInt8} {t : Text}

theorem tidy_cons_of_not (h : isTrailing b = false) (t : Text) : tidy (b :: t) = b :: tidy t := by
  rw [tidy, h]
  rfl

theorem isTrailing_of_not_gap (h : isGap b = false) : isTrailing b = false := by
  simp only [isGap, isTrailing, Bool.or_eq_false_iff] at h ⊢
  exact ⟨⟨h.1.1.1, h.1.1.2⟩, h.2⟩

theorem tidy_cons_of_not_gap (h : isGap b = false) (t : Text) : tidy (b :: t) = b :: tidy t :=
  tidy_cons_of_not (isTrailing_of_not_gap h) t

/-- Where only blanks are left on the line, it ends at once. -/
theorem tidy_of_endsLine (h : endsLine t) : ∃ rest, tidy t = 0x0a :: rest := by
  induction t with
  | nil => exact ⟨[], rfl⟩
  | cons b t ih =>
    by_cases hb : b = 0x0a
    · exact ⟨tidy t, by rw [hb, tidy_cons_of_not rfl]⟩
    · have hline : isTrailing b && endsLine t := by
        simpa [endsLine, List.takeWhile_cons_of_pos, hb] using h
      rw [tidy, if_pos hline]
      exact ih (Bool.and_eq_true_iff.1 hline).2

/-- What is written for white space begins with white space. -/
theorem tidy_gap {v : Text} (hv : ∀ c ∈ v.head?, isGap c) : ∃ c rest, tidy v = c :: rest ∧ isGap c := by
  cases v with
  | nil => exact ⟨0x0a, [], rfl, rfl⟩
  | cons c v =>
    rw [tidy]
    split
    · rename_i hdrop
      obtain ⟨rest, hrest⟩ := tidy_of_endsLine (Bool.and_eq_true_iff.1 hdrop).2
      exact ⟨0x0a, rest, hrest, rfl⟩
    · exact ⟨c, tidy v, rfl, hv c rfl⟩

theorem tidy_append {u : Text} (hu : ∀ c ∈ u, isGap c = false) (v : Text) : tidy (u ++ v) = u ++ tidy v := by
  induction u with
  | nil => rfl
  | cons c u ih =>
    have hrest := ih fun d hd => hu d (List.mem_cons_of_mem c hd)
    rw [List.cons_append, tidy_cons_of_not_gap (hu c List.mem_cons_self), hrest]
    rfl

theorem head?_tidy (hb : isGap b = false) : (tidy t).head? = some b ↔ t.head? = some b := by
  cases t with
  | nil =>
    have hne : (0x0a : UInt8) ≠ b := fun h => by rw [← h] at hb; cases hb
    simpa [tidy] using hne
  | cons c t =>
    rw [tidy]
    split
    · rename_i hdrop
      obtain ⟨hc, hline⟩ := Bool.and_eq_true_iff.1 hdrop
      obtain ⟨rest, hrest⟩ := tidy_of_endsLine hline
      have hne : (0x0a : UInt8) ≠ b := fun h => by rw [← h] at hb; cases hb
      have hne' : c ≠ b := fun h => by rw [h, isTrailing_of_not_gap hb] at hc; cases hc
      simp [hrest, hne, hne']
    · rfl

theorem apart_of_gap {v : Text} (hv : ∀ c ∈ v.head?, isGap c) : Apart v := by
  have hbreak : ∀ c, isGap c → c ∈ breaks := by
    intro c hc
    simp only [isGap, Bool.or_eq_true, beq_iff_eq] at hc
    rcases hc with ((rfl | rfl) | rfl) | rfl <;> decide
  exact fun c hc => hbreak c (hv c hc)

/-- The bytes up to white space, and the rest. -/
theorem exists_word (t : Text) : ∃ u v, t = u ++ v ∧ (∀ c ∈ u, isGap c = false) ∧ ∀ c ∈ v.head?, isGap c := by
  refine ⟨t.takeWhile (!isGap ·), t.dropWhile (!isGap ·), List.takeWhile_append_dropWhile.symm, ?_, ?_⟩
  · intro c hc
    simpa using List.mem_takeWhile_imp hc
  · intro c hc
    have := List.head?_dropWhile_not (!isGap ·) t
    rw [Option.mem_def.1 hc] at this
    simpa using this

/-- A plain lexeme is written as it is. -/
theorem measure_tidy (h : Plain b t) {kind : TokenKind} {n : Nat} (hm : measure b t = some (kind, n)) :
    measure b (tidy t) = some (kind, n) ∧ (tidy t).take n = t.take n ∧ (tidy t).drop n = tidy (t.drop n) := by
  obtain ⟨u, v, rfl, hu, hv⟩ := exists_word t
  have hplain : Plain b u := by
    refine ⟨h.1, fun hc => h.2 ⟨hc.1, ?_⟩⟩
    cases u with
    | nil => simp at hc
    | cons c u => exact hc.2
  have htidy : Apart (tidy v) := by
    obtain ⟨c, rest, hrest, hc⟩ := tidy_gap hv
    rw [hrest]
    exact apart_of_gap (by simpa using hc)
  rw [measure_append hplain (apart_of_gap hv)] at hm
  have hn : n ≤ u.length := plain_le hplain hm
  rw [tidy_append hu, measure_append hplain htidy, List.take_append_of_le_length hn, List.take_append_of_le_length hn,
    List.drop_append_of_le_length hn, List.drop_append_of_le_length hn,
    tidy_append fun c hc => hu c (List.mem_of_mem_drop hc)]
  exact ⟨hm, rfl, rfl⟩

/-! ### Comments -/

theorem drop_lineRest_tidy (t : Text) : (tidy t).drop (lineRest (tidy t)) = tidy (t.drop (lineRest t)) := by
  induction t with
  | nil => rfl
  | cons b t ih =>
    rw [lineRest_cons]
    split
    · rename_i hend
      have hkept : isTrailing b = false := by rcases hend with rfl | rfl <;> rfl
      rw [tidy_cons_of_not hkept, lineRest_cons, if_pos hend, List.drop_zero, List.drop_zero, tidy_cons_of_not hkept]
    · rename_i hend
      rw [List.drop_succ_cons, ← ih, tidy]
      split
      · rfl
      · rw [lineRest_cons, if_neg hend, List.drop_succ_cons]

theorem content?_drop_blockRest_tidy (t : Text) :
    content? ((tidy t).drop (blockRest (tidy t))) = content? (tidy (t.drop (blockRest t))) := by
  induction t with
  | nil => exact content?_nil.trans (by rw [List.drop_nil, tidy, content?_gap rfl, content?_nil])
  | cons b t ih =>
    rw [blockRest_cons]
    split
    · rename_i hclose
      obtain ⟨rfl, ht⟩ := hclose
      obtain ⟨t, rfl⟩ := List.head?_eq_some_iff.1 ht
      rfl
    · rename_i hclose
      split
      · rename_i hz
        subst hz
        rfl
      · rename_i hz
        rw [List.drop_succ_cons, ← ih, tidy]
        split
        · rfl
        · have hopen : ¬ (b = 0x2a ∧ (tidy t).head? = some 0x2f) := by rwa [head?_tidy rfl]
          rw [blockRest_cons, if_neg hopen, if_neg hz, List.drop_succ_cons]

/-! ### Literals -/

/-- No byte of `l` is a blank at the end of a line when `r` follows it. -/
def kept : Text → Text → Bool
  | [], _ => true
  | b :: l, r => !(isTrailing b && endsLine (l ++ r)) && kept l r

theorem kept_cons {l r : Text} (h : kept (b :: l) r) : kept l r ∧ ∀ v, v = l ++ r → tidy (b :: v) = b :: tidy v := by
  obtain ⟨hb, hl⟩ := Bool.and_eq_true_iff.1 h
  refine ⟨hl, ?_⟩
  rintro v rfl
  rw [Bool.not_eq_true'] at hb
  rw [tidy, hb]
  rfl

theorem tidy_of_kept {l r : Text} (h : kept l r) : tidy (l ++ r) = l ++ tidy r := by
  induction l with
  | nil => rfl
  | cons b l ih =>
    obtain ⟨hl, hb⟩ := kept_cons h
    rw [List.cons_append, hb _ rfl, ih hl]
    rfl

theorem not_prefix_of_not_kept {l r : Text} (h : kept l r = false) : ¬ l <+: tidy (l ++ r) := by
  induction l with
  | nil => cases h
  | cons b l ih =>
    rw [List.cons_append, tidy]
    split
    · rename_i hdrop
      obtain ⟨hb, hline⟩ := Bool.and_eq_true_iff.1 hdrop
      obtain ⟨rest, hrest⟩ := tidy_of_endsLine hline
      rw [hrest, List.cons_prefix_cons]
      rintro ⟨rfl, -⟩
      cases hb
    · rename_i hkeep
      rw [List.cons_prefix_cons]
      rintro ⟨-, hl⟩
      exact ih (by simpa [kept, hkeep] using h) hl

theorem quotedRest_tidy {quote : UInt8} (hq : quote ≠ 0x0a) {n : Nat} (hn : quotedRest quote t = some n)
    (h : kept (t.take n) (t.drop n)) : quotedRest quote (tidy t) = some n := by
  induction t using quoted_induction generalizing n with
  | nil =>
    obtain rfl := Option.some.inj hn
    simp [tidy, quotedRest, hq.symm]
  | cut => cases hn
  | escape c t ih =>
    rw [quotedRest, if_pos rfl] at hn
    obtain ⟨m, hm, rfl⟩ := Option.map_eq_some_iff.1 hn
    rw [List.take_succ_cons, List.take_succ_cons, List.drop_succ_cons, List.drop_succ_cons] at h
    obtain ⟨h, -⟩ := kept_cons h
    obtain ⟨h, hc⟩ := kept_cons h
    rw [tidy_cons_of_not rfl, hc t (List.take_append_drop m t).symm, quotedRest, if_pos rfl, ih hm h]
    rfl
  | plain b t hb ih =>
    rw [quotedRest_cons hb] at hn
    by_cases hend : b = quote
    · rw [if_pos hend] at hn
      obtain rfl := Option.some.inj hn
      obtain ⟨-, hkept⟩ := kept_cons h
      rw [hkept t rfl, quotedRest_cons hb, if_pos hend]
    · rw [if_neg hend] at hn
      by_cases hstop : b = 0 ∨ b = 0x0a
      · rw [if_pos hstop] at hn
        have hkept : isTrailing b = false := by rcases hstop with rfl | rfl <;> rfl
        rw [tidy_cons_of_not hkept, quotedRest_cons hb, if_neg hend, if_pos hstop, hn]
      · rw [if_neg hstop] at hn
        obtain ⟨m, hm, rfl⟩ := Option.map_eq_some_iff.1 hn
        obtain ⟨h, hkept⟩ := kept_cons h
        rw [hkept t (List.take_append_drop m t).symm, quotedRest_cons hb, if_neg hend, if_neg hstop, ih hm h]
        rfl

theorem rawRest_tidy (hends : rawEnds t) (h : kept (t.take (rawRest t)) (t.drop (rawRest t))) :
    rawRest (tidy t) = rawRest t := by
  induction t with
  | nil => cases hends
  | cons b t ih =>
    rw [rawRest] at h ⊢
    split
    · rename_i hq
      rw [tidy_cons_of_not (by rw [hq]; rfl), rawRest, if_pos hq]
    · rename_i hq
      rw [if_neg hq] at h
      split
      · rename_i hz
        rw [tidy_cons_of_not (by rw [hz]; rfl), rawRest, if_neg hq, if_pos hz]
      · rename_i hz
        rw [if_neg hz] at h
        obtain ⟨h, hkept⟩ := kept_cons h
        rw [hkept t (List.take_append_drop _ t).symm, rawRest, if_neg hq, if_neg hz,
          ih (by simpa [rawEnds, hq, hz] using hends) h]

theorem count_tidy (t : Text) : (tidy t).count 0x0a = t.count 0x0a + 1 := by
  induction t with
  | nil => rfl
  | cons b t ih =>
    rw [tidy]
    split
    · rename_i hdrop
      have hb : b ≠ 0x0a := by
        rintro rfl
        cases (Bool.and_eq_true_iff.1 hdrop).1
      rw [ih, List.count_cons_of_ne hb]
    · rw [List.count_cons, List.count_cons, ih]
      omega

theorem mem_tidy {c : UInt8} (h : c ∈ tidy t) : c = 0x0a ∨ c ∈ t := by
  induction t with
  | nil => exact .inl (by simpa [tidy] using h)
  | cons b t ih =>
    rw [tidy] at h
    split at h
    · exact (ih h).imp_right (List.mem_cons_of_mem b)
    · rcases List.mem_cons.1 h with rfl | h
      · exact .inr List.mem_cons_self
      · exact (ih h).imp_right (List.mem_cons_of_mem b)

theorem getLast?_tidy (t : Text) : (tidy t).getLast? = some 0x0a := by
  induction t with
  | nil => rfl
  | cons b t ih =>
    rw [tidy]
    split
    · exact ih
    · rw [List.getLast?_cons, ih]
      rfl

theorem getLast?_of_quotedRest {quote : UInt8} (h : quotedRest quote t = none) : t.getLast? = some 0x5c := by
  induction t using quoted_induction with
  | nil => cases h
  | cut => rfl
  | escape c t ih =>
    rw [List.getLast?_cons, List.getLast?_cons, ih (by simpa [quotedRest] using h)]
    rfl
  | plain b t hb ih =>
    rw [quotedRest_cons hb] at h
    split at h
    · cases h
    · split at h
      · cases h
      · rw [List.getLast?_cons, ih (by simpa using h)]
        rfl

/-- A text that cannot be cut into tokens ends with a backslash. -/
theorem getLast?_of_content?_eq_none (h : content? t = none) : t.getLast? = some 0x5c := by
  induction t using scan_induction with
  | nil => simp at h
  | gap b t hgap ih =>
    rw [List.getLast?_cons, ih ((content?_gap hgap t).symm.trans h)]
    rfl
  | zero t => simp [content?_zero] at h
  | cut b t hgap hb hm =>
    have hlast : t.getLast? = some 0x5c := by
      cases opening b t with
      | line t => simp [measure_line] at hm
      | block t => simp [measure_block] at hm
      | quoted _ _ hq => exact getLast?_of_quotedRest (by simpa [measure_quoted hq] using hm)
      | raw _ => simp [measure_raw] at hm
      | plain _ _ hp =>
        rw [measure_of_plain hp] at hm
        repeat' split at hm
        all_goals cases hm
    rw [List.getLast?_cons, hlast]
    rfl
  | lexeme b t kind n hgap hb hm ih =>
    rw [content?_cons hgap hb, hm] at h
    have hlast := ih (by simpa using h)
    rw [List.getLast?_drop] at hlast
    split at hlast
    · cases hlast
    · rw [List.getLast?_cons, hlast]
      rfl

theorem content?_tidy_ne_none (t : Text) : content? (tidy t) ≠ none := by
  intro h
  have := getLast?_of_content?_eq_none h
  rw [getLast?_tidy] at this
  cases this

/-! ### Bodies -/

/-- No line of a literal ends with a blank, and raw literals have an end. -/
def KeepsLiterals (t : Text) : Prop :=
  Every (fun b rest n => b ∈ quotes → kept (rest.take n) (rest.drop n) ∧ (b = 0x60 → rawEnds rest)) t

section Literal

variable {kind : TokenKind} {n : Nat} (hgap : isGap b = false) (hb : b ≠ 0) (hm : measure b t = some (kind, n))
include hgap hb hm

/-- A lexeme that is written as it is leaves the question to the rest of the text. -/
theorem content?_tidy_of_same (hm' : measure b (tidy t) = some (kind, n)) (htake : (tidy t).take n = t.take n)
    (hdrop : (tidy t).drop n = tidy (t.drop n)) :
    content? (tidy (b :: t)) = content? (b :: t) ↔ content? (tidy (t.drop n)) = content? (t.drop n) := by
  have hinj : Function.Injective (Option.map (push kind (b :: t.take n))) :=
    Option.map_injective fun _ _ => push_injective
  rw [tidy_cons_of_not_gap hgap, content?_cons hgap hb, content?_cons hgap hb, hm, hm']
  simp only [Option.bind_some, htake, hdrop]
  exact hinj.eq_iff

theorem content?_tidy_of_kept (hm' : measure b (tidy t) = some (kind, n)) (hkept : kept (t.take n) (t.drop n)) :
    content? (tidy (b :: t)) = content? (b :: t) ↔ content? (tidy (t.drop n)) = content? (t.drop n) := by
  have htidy : tidy t = t.take n ++ tidy (t.drop n) := by
    conv_lhs => rw [← List.take_append_drop n t]
    exact tidy_of_kept hkept
  have hn : (t.take n).length = n := List.length_take_of_le (measure_le hm)
  refine content?_tidy_of_same hgap hb hm hm' ?_ ?_
  · rw [htidy, List.take_left' hn]
  · rw [htidy, List.drop_left' hn]

/-- A literal that is written in another way is another token. -/
theorem content?_tidy_ne (hk : kind.isComment = false) (hne : ∀ kind' n', measure b (tidy t) = some (kind', n') →
    kind'.isComment = false ∧ (tidy t).take n' ≠ t.take n) : content? (tidy (b :: t)) ≠ content? (b :: t) := by
  obtain ⟨ts, hts⟩ := Option.ne_none_iff_exists'.1 (content?_tidy_ne_none (b :: t))
  rw [hts]
  intro heq
  rw [tidy_cons_of_not_gap hgap, content?_cons hgap hb] at hts
  rw [content?_cons hgap hb, hm] at heq
  obtain ⟨⟨kind', n'⟩, hm', htidy⟩ := Option.bind_eq_some_iff.1 hts
  obtain ⟨_, -, hx⟩ := Option.map_eq_some_iff.1 htidy
  obtain ⟨_, -, hy⟩ := Option.map_eq_some_iff.1 heq.symm
  obtain ⟨hk', htake⟩ := hne kind' n' hm'
  rw [← hy, push, push, if_neg (by simp [hk']), if_neg (by simp [hk])] at hx
  obtain ⟨hpair, -⟩ := List.cons.inj hx
  exact htake (List.cons.inj (Prod.mk.inj hpair).2).2

theorem content?_tidy_ne_of_not_kept (hk : ∀ t' kind' n', measure b t' = some (kind', n') → kind'.isComment = false)
    (hkept : kept (t.take n) (t.drop n) = false) : content? (tidy (b :: t)) ≠ content? (b :: t) := by
  refine content?_tidy_ne hgap hb hm (hk _ _ _ hm) fun kind' n' hm' => ⟨hk _ _ _ hm', fun htake => ?_⟩
  have hprefix := not_prefix_of_not_kept hkept
  rw [List.take_append_drop] at hprefix
  exact hprefix (htake ▸ List.take_prefix n' (tidy t))

/-- A literal between quotes is the same exactly if all its bytes are kept. -/
theorem content?_tidy_quoted (hq : b = 0x22 ∨ b = 0x27) : content? (tidy (b :: t)) = content? (b :: t) ↔
    kept (t.take n) (t.drop n) ∧ content? (tidy (t.drop n)) = content? (t.drop n) := by
  cases hkept : kept (t.take n) (t.drop n) with
  | true =>
    have hm' : measure b (tidy t) = some (kind, n) := by
      have hmeasure := hm
      rw [measure_quoted hq] at hmeasure ⊢
      obtain ⟨m, hrest, heq⟩ := Option.map_eq_some_iff.1 hmeasure
      obtain ⟨rfl, rfl⟩ := Prod.mk.inj heq
      rw [quotedRest_tidy (by rcases hq with rfl | rfl <;> decide) hrest hkept]
      rfl
    rw [content?_tidy_of_kept hgap hb hm hm' hkept]
    simp
  | false =>
    refine iff_of_false (content?_tidy_ne_of_not_kept hgap hb hm (fun t' kind' n' h => ?_) hkept) (by simp)
    rw [measure_quoted hq] at h
    obtain ⟨_, -, heq⟩ := Option.map_eq_some_iff.1 h
    rw [← (Prod.mk.inj heq).1]
    rcases hq with rfl | rfl <;> rfl

end Literal

/-- A raw literal may go on over lines; it also has to end, for a line feed is written after the text. -/
theorem content?_tidy_raw (t : Text) : content? (tidy (0x60 :: t)) = content? (0x60 :: t) ↔
    (kept (t.take (rawRest t)) (t.drop (rawRest t)) ∧ rawEnds t) ∧
      content? (tidy (t.drop (rawRest t))) = content? (t.drop (rawRest t)) := by
  have hquote : (0x60 : UInt8) ≠ 0 := by decide
  have hkind : ∀ t' kind n, measure 0x60 t' = some (kind, n) → kind.isComment = false := by
    intro t' kind n h
    rw [← (Prod.mk.inj (Option.some.inj ((measure_raw t').symm.trans h))).1]
    rfl
  cases hends : rawEnds t with
  | false =>
    refine iff_of_false ?_ (by simp)
    refine content?_tidy_ne rfl hquote (measure_raw t) rfl fun kind n hm => ⟨hkind _ _ _ hm, ?_⟩
    have htidy : rawEnds (tidy t) = false := by
      refine List.any_eq_false.2 fun c hc => ?_
      rcases mem_tidy hc with rfl | hc
      · decide
      · exact List.any_eq_false.1 hends c hc
    rw [← (Prod.mk.inj (Option.some.inj ((measure_raw _).symm.trans hm))).2, rawRest_of_not_ends hends,
      rawRest_of_not_ends htidy, List.take_length, List.take_length]
    intro heq
    have hcount := count_tidy t
    rw [heq] at hcount
    omega
  | true =>
    cases hkept : kept (t.take (rawRest t)) (t.drop (rawRest t)) with
    | true =>
      have hm : measure 0x60 (tidy t) = some (.string, rawRest t) := by rw [measure_raw, rawRest_tidy hends hkept]
      rw [content?_tidy_of_kept rfl hquote (measure_raw t) hm hkept]
      simp
    | false => exact iff_of_false (content?_tidy_ne_of_not_kept rfl hquote (measure_raw t) hkind hkept) (by simp)

/-- The content of what is written for a text is that of the text exactly if the literals are kept. -/
theorem content?_tidy_iff (t : Text) : content? (tidy t) = content? t ↔ KeepsLiterals t := by
  unfold KeepsLiterals
  induction t using scan_induction with
  | nil => exact iff_of_true (by rw [tidy, content?_gap rfl]) .nil
  | gap b t hgap ih =>
    rw [every_gap hgap, ← ih, content?_gap hgap, tidy]
    split
    · rfl
    · rw [content?_gap hgap]
  | zero t =>
    rw [every_zero, tidy_cons_of_not rfl, content?_zero, content?_zero]
    exact iff_of_true rfl fun h => absurd h (by decide)
  | cut b t hgap hb hm =>
    refine iff_of_false ?_ (not_every_cut hgap hb hm)
    have hnone : content? (b :: t) = none := by rw [content?_cons hgap hb, hm]; rfl
    rw [hnone]
    exact content?_tidy_ne_none _
  | lexeme b t kind n hgap hb hm ih =>
    rw [every_lexeme hgap hb hm]
    cases opening b t with
    | line t =>
      obtain ⟨-, rfl⟩ := Prod.mk.inj (Option.some.inj ((measure_line t).symm.trans hm))
      rw [tidy_cons_of_not rfl, tidy_cons_of_not rfl, content?_line, content?_line, drop_lineRest_tidy, ← ih]
      exact (and_iff_right fun h => absurd h (by decide)).symm
    | block t =>
      obtain ⟨-, rfl⟩ := Prod.mk.inj (Option.some.inj ((measure_block t).symm.trans hm))
      rw [tidy_cons_of_not rfl, tidy_cons_of_not rfl, content?_block, content?_block, content?_drop_blockRest_tidy,
        ← ih]
      exact (and_iff_right fun h => absurd h (by decide)).symm
    | quoted _ _ hq =>
      have hquote : b ∈ quotes ∧ b ≠ 0x60 := by rcases hq with rfl | rfl <;> decide
      rw [content?_tidy_quoted hgap hb hm hq, ih]
      simp [hquote]
    | raw _ =>
      obtain ⟨-, rfl⟩ := Prod.mk.inj (Option.some.inj ((measure_raw t).symm.trans hm))
      have hquote : (0x60 : UInt8) ∈ quotes := by decide
      rw [content?_tidy_raw, ih]
      simp [hquote]
    | plain _ _ hp =>
      obtain ⟨hm', htake, hdrop⟩ := measure_tidy hp hm
      rw [content?_tidy_of_same hgap hb hm hm' htake hdrop, ih]
      exact (and_iff_right fun h => absurd h hp.1).symm

end Text

/-- The bodies of a meaning's constructors, methods and overrides. -/
def MeaningDecl.bodies (d : MeaningDecl) : List Text := d.constructors.map (·.body) ++ d.methods.map (·.body)

theorem MeaningDecl.Captured.bodies {d : MeaningDecl} (h : d.Captured) : ∀ body ∈ d.bodies, body.IsTrimmed := by
  intro body hbody
  rcases List.mem_append.1 hbody with hbody | hbody
  · obtain ⟨c, hc, rfl⟩ := List.mem_map.1 hbody
    exact (h.constructors c hc).body
  · obtain ⟨f, hf, rfl⟩ := List.mem_map.1 hbody
    exact (h.methods f hf).body

/-- Bodies are written with the tokens that they have.  For every body in a file that was read, the lines that are
written have the same tokens apart from comments exactly if no line of a literal ends with a blank. -/
theorem DeclFile.body_verbatim_iff {name source : Text} {result : ReadResult}
    (h : DeclFile.read name source = .ok result) : ∀ d ∈ result.file.meanings, ∀ body ∈ d.bodies,
      Text.content? (Code.render (Code.bodyLines body)) = Text.content? body ↔ body.KeepsLiterals := by
  intro d hd body hbody
  have htrimmed := ((captured_of_read h).meanings d hd).bodies body hbody
  cases hblank : body.isBlank with
  | true =>
    obtain rfl := htrimmed.isBlank_iff.1 hblank
    rw [Code.bodyLines, if_pos hblank]
    exact iff_of_true rfl .nil
  | false =>
    rw [Code.render_bodyLines hblank]
    exact Text.content?_tidy_iff body

/-- A raw literal over two lines whose blanks are at the start of a line. -/
def verseSource : Text :=
  "meaning A \x7b\n\tfn verse() string \x7b\n\t\treturn `a\n  b`  // two lines  \n\t\x7d\n\x7d\n"

theorem DeclFile.body_verbatim_verse : ∃ result, @DeclFile.read .english "a.mt" verseSource = .ok result ∧
    ∃ d ∈ result.file.meanings, ∃ body ∈ d.bodies, body = Text.ofString "return `a\n  b`  // two lines" ∧
      body.KeepsLiterals ∧ Text.content? (Code.render (Code.bodyLines body)) = Text.content? body := by
  obtain ⟨result, hmem, d, hd, hbody⟩ : ∃ result ∈ (@DeclFile.read .english "a.mt" verseSource).toOption,
      ∃ d ∈ result.file.meanings, Text.ofString "return `a\n  b`  // two lines" ∈ d.bodies := by decide +kernel
  have hsame : Text.content? (Code.render (Code.bodyLines "return `a\n  b`  // two lines")) =
      Text.content? "return `a\n  b`  // two lines" := by decide +kernel
  have hread := read_of_mem hmem
  exact ⟨result, hread, d, hd, _, hbody, rfl, (body_verbatim_iff hread d hd _ hbody).1 hsame, hsame⟩

/-- A raw literal with blanks at the end of a line. -/
def paddedSource : Text :=
  "package p\nmeaning A \x7b\n\tfn text() string \x7b\n\t\treturn `a  \nb`\n\t\x7d\n\x7d\n"

theorem DeclFile.body_altered_padded : ∃ result, @DeclFile.read .english "a.mt" paddedSource = .ok result ∧
    result.problems = [] ∧ ∃ d ∈ result.file.meanings, ∃ body ∈ d.bodies, body = Text.ofString "return `a  \nb`" ∧
      Code.render (Code.bodyLines body) = "return `a\nb`\n" ∧
      Text.content? (Code.render (Code.bodyLines body)) ≠ Text.content? body := by
  obtain ⟨result, hmem, hproblems, d, hd, hbody⟩ : ∃ result ∈ (@DeclFile.read .english "a.mt" paddedSource).toOption,
      result.problems = [] ∧ ∃ d ∈ result.file.meanings, Text.ofString "return `a  \nb`" ∈ d.bodies := by decide +kernel
  have hlines : Code.render (Code.bodyLines "return `a  \nb`") = "return `a\nb`\n" := by decide +kernel
  have hother : Text.content? "return `a\nb`\n" ≠ Text.content? "return `a  \nb`" := by decide +kernel
  rw [← hlines] at hother
  exact ⟨result, read_of_mem hmem, hproblems, d, hd, _, hbody, rfl, hlines, hother⟩

end MeaningForest

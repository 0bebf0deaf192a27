import MeaningForest.Proofs.Tokens

/-!
# Other white space between tokens

What a lexeme is depends on its own bytes only: it is read the same when the text ends behind it, and when a line feed
follows instead of what followed before (`measure_take_append`).  A literal between quotes and a line comment end at a
line feed anyway; any other lexeme that something follows has an end of its own, since only a zero byte or the end of
the text cuts it off.

So the lexemes of a text, each on a line of its own, are read as the same lexemes (`Lexed.respaced`), and the tokens of
a source keep their kinds and literals (`Token.exists_respaced`).
-/

namespace MeaningForest

namespace Lexeme

/-! ### Plain lexemes -/

theorem span_take (p : UInt8 → Bool) (t : Text) (k : Nat) : span p (t.take k) = min k (span p t) := by
  unfold span
  induction t generalizing k with
  | nil => simp
  | cons b t ih =>
    cases k with
    | zero => simp
    | succ k =>
      rw [List.take_succ_cons, List.takeWhile_cons, List.takeWhile_cons]
      split
      · rw [List.length_cons, List.length_cons, ih, Nat.succ_min_succ]
      · simp

theorem head?_of_take {t : Text} {k : Nat} {c : UInt8} (h : (t.take k).head? = some c) : t.head? = some c := by
  obtain ⟨rest, hrest⟩ := List.head?_eq_some_iff.1 h
  rw [← List.take_append_drop k t, hrest]
  rfl

theorem exponent_take (t : Text) : exponent (t.take (exponent t)) = exponent t := by
  cases t with
  | nil => rfl
  | cons e t =>
    rw [exponent_cons e t]
    by_cases he : e = 0x65 ∨ e = 0x45
    · rw [if_pos he]
      by_cases hsign : t.head? = some 0x2b ∨ t.head? = some 0x2d
      · rw [if_pos hsign]
        cases t with
        | nil => simp at hsign
        | cons s t =>
          rw [List.tail_cons, show 2 + span Text.isDigit t = span Text.isDigit t + 1 + 1 by omega, List.take_succ_cons,
            List.take_succ_cons, exponent_cons, if_pos he, if_pos (by simpa using hsign), List.tail_cons, span_take]
          omega
      · have hsign' : ¬ ((t.take (span Text.isDigit t)).head? = some 0x2b ∨
            (t.take (span Text.isDigit t)).head? = some 0x2d) :=
          fun h => hsign (h.imp head?_of_take head?_of_take)
        rw [if_neg hsign, Nat.add_comm, List.take_succ_cons, exponent_cons, if_pos he, if_neg hsign', span_take]
        omega
    · rw [if_neg he]
      rfl

/-- The fraction of a numeral does not depend on what stands after the exponent. -/
theorem fraction_take (t : Text) : fraction (t.take (fraction t + exponent (t.drop (fraction t)))) = fraction t := by
  cases t with
  | nil => rfl
  | cons d t =>
    by_cases hpoint : d = 0x2e ∧ (t.head?.map Text.isDigit).getD false
    · have hfrac : fraction (d :: t) = 1 + span isNumeralPart t := by rw [fraction_cons, if_pos hpoint]
      cases t with
      | nil => simp at hpoint
      | cons c t =>
        have hdigit : Text.isDigit c := by simpa using hpoint.2
        have hspan : span isNumeralPart (c :: t) = span isNumeralPart t + 1 := by
          simp [span, isNumeralPart, hdigit]
        rw [hfrac]
        generalize exponent _ = e
        rw [show 1 + span isNumeralPart (c :: t) + e = span isNumeralPart t + e + 1 + 1 by omega, List.take_succ_cons,
          fraction_cons, if_pos ⟨hpoint.1, by simpa using hpoint.2⟩, span_take, hspan]
        omega
    · have hfrac : fraction (d :: t) = 0 := by rw [fraction_cons, if_neg hpoint]
      rw [hfrac, Nat.zero_add, List.drop_zero, exponent_cons]
      -- what begins with the mark of an exponent does not begin with a point
      split
      · rename_i he
        have hd : d ≠ 0x2e := by rcases he with rfl | rfl <;> decide
        have hnone : ∀ u : Text, fraction (d :: u) = 0 := fun u => by rw [fraction_cons, if_neg fun h => hd h.1]
        split
        · rw [show 2 + span Text.isDigit t.tail = 1 + span Text.isDigit t.tail + 1 by omega, List.take_succ_cons, hnone]
        · rw [Nat.add_comm, List.take_succ_cons, hnone]
      · rfl

theorem numeral_decimal {b : UInt8} {t : Text} (hbase : ¬ (b = 0x30 ∧ (t.head?.map isBaseMark).getD false))
    {w f e : Nat}
    (hw : span isNumeralPart t = w) (hf : fraction (t.drop w) = f) (he : exponent (t.drop (w + f)) = e) :
    numeral b t = (if f = 0 ∧ e = 0 then .int else .float, w + f + e) := by
  subst hw hf he
  exact if_neg hbase

theorem numeral_take (b : UInt8) (t : Text) : numeral b (t.take (numeral b t).2) = numeral b t := by
  by_cases hbase : b = 0x30 ∧ (t.head?.map isBaseMark).getD false
  · have hnumeral : numeral b t = (.int, 1 + span isHexPart (t.drop 1)) := if_pos hbase
    cases t with
    | nil => simp at hbase
    | cons d t =>
      rw [hnumeral, Nat.add_comm, List.take_succ_cons, numeral, if_pos (by simpa using hbase), List.drop_one,
        List.drop_one, List.tail_cons, List.tail_cons, span_take, Nat.min_self, Nat.add_comm]
  · obtain ⟨w, hw⟩ : ∃ w, span isNumeralPart t = w := ⟨_, rfl⟩
    obtain ⟨f, hf⟩ : ∃ f, fraction (t.drop w) = f := ⟨_, rfl⟩
    obtain ⟨e, he⟩ : ∃ e, exponent (t.drop (w + f)) = e := ⟨_, rfl⟩
    rw [numeral_decimal hbase hw hf he]
    dsimp only
    refine numeral_decimal ?_ ?_ ?_ ?_
    · rintro ⟨hb, h⟩
      cases hhead : (t.take (w + f + e)).head? with
      | none => simp [hhead] at h
      | some c => exact hbase ⟨hb, by rw [head?_of_take hhead, ← hhead]; exact h⟩
    · rw [span_take, hw]
      omega
    · have h := fraction_take (t.drop w)
      rwa [List.drop_drop, hf, he, List.take_drop, ← Nat.add_assoc] at h
    · have h := exponent_take (t.drop (w + f))
      rwa [he, List.take_drop] at h

/-- The first element that satisfies a condition is also the first that satisfies a stronger one, if it does. -/
theorem find?_of_imp {α : Type} {p q : α → Bool} {l : List α} {a : α} (h : l.find? p = some a) (ha : q a)
    (hqp : ∀ x ∈ l, q x → p x) : l.find? q = some a := by
  obtain ⟨-, before, after, rfl, hbefore⟩ := List.find?_eq_some_iff_append.1 h
  refine List.find?_eq_some_iff_append.2 ⟨ha, before, after, rfl, fun x hx => ?_⟩
  have hnot := hbefore x hx
  simp only [Bool.not_eq_true'] at hnot ⊢
  by_contra hq
  have := hqp x (by simp [hx]) (by simpa using hq)
  simp [hnot] at this

theorem symbolic_take (b : UInt8) (t : Text) : symbolic b (t.take (symbolic b t).2) = symbolic b t := by
  have hshorter : ∀ (k : Nat) (op : Text), Text.startsWith (b :: t.take k) op → Text.startsWith (b :: t) op := by
    intro k op h
    have hop : op <+: b :: t.take k := by simpa [Text.startsWith] using h
    simpa [Text.startsWith] using hop.trans (List.cons_prefix_cons.2 ⟨rfl, List.take_prefix k t⟩)
  unfold symbolic
  cases hfind : operators.find? fun op => Text.startsWith (b :: t) op with
  | none =>
    have hnone : (operators.find? fun op => Text.startsWith (b :: t.take 0) op) = none := by
      rw [List.find?_eq_none] at hfind ⊢
      exact fun op hop h => hfind op hop (hshorter 0 op h)
    dsimp only
    rw [hnone]
  | some op =>
    have hprefix : op <+: b :: t := by simpa [Text.startsWith] using List.find?_some hfind
    have hne : ∀ op ∈ operators, op ≠ [] := by decide
    -- an operator is all that is left of the text
    have hown : b :: t.take (op.length - 1) = op := by
      obtain ⟨c, op', rfl⟩ := List.exists_cons_of_ne_nil (hne op (List.mem_of_find?_eq_some hfind))
      obtain ⟨rfl, hrest⟩ := List.cons_prefix_cons.1 hprefix
      rw [List.length_cons, Nat.add_sub_cancel, ← List.prefix_iff_eq_take.1 hrest]
    have hsome : (operators.find? fun op' => Text.startsWith (b :: t.take (op.length - 1)) op') = some op := by
      refine find?_of_imp hfind ?_ fun op' _ h => hshorter _ op' h
      simp [hown, Text.startsWith]
    dsimp only
    rw [hsome]

theorem dots?_take {b : UInt8} {t : Text} {kind : TokenKind} {n : Nat} (h : dots? b t = some (kind, n)) :
    dots? b (t.take n) = some (kind, n) := by
  unfold dots? at h ⊢
  split at h
  · rename_i hdots
    obtain ⟨rest, rfl⟩ := List.head?_eq_some_iff.1 hdots.2
    split at h
    · rename_i hmore
      have hprefix : [0x2e, 0x2e] <+: 0x2e :: rest := by simpa [Text.startsWith] using hmore
      obtain ⟨rest, rfl⟩ := (List.cons_prefix_cons.1 hprefix).2
      obtain ⟨rfl, rfl⟩ := Prod.mk.inj (Option.some.inj h)
      rw [if_pos ⟨hdots.1, rfl⟩]
      rfl
    · obtain ⟨rfl, rfl⟩ := Prod.mk.inj (Option.some.inj h)
      rw [if_pos ⟨hdots.1, rfl⟩]
      rfl
  · cases h

theorem dots?_take_eq_none {b : UInt8} {t : Text} (h : dots? b t = none) (k : Nat) : dots? b (t.take k) = none := by
  unfold dots? at h ⊢
  rw [ite_eq_right_iff] at h
  rw [if_neg]
  rintro ⟨hb, hhead⟩
  have := h ⟨hb, head?_of_take hhead⟩
  split at this <;> cases this

theorem Plain.take {b : UInt8} {t : Text} (h : Plain b t) (k : Nat) : Plain b (t.take k) :=
  ⟨h.1, fun hc => h.2 ⟨hc.1, hc.2.imp head?_of_take head?_of_take⟩⟩

/-- A plain lexeme is read the same from its own bytes. -/
theorem measure_take_of_plain {b : UInt8} {t : Text} (hp : Plain b t) {kind : TokenKind} {n : Nat}
    (hm : measure b t = some (kind, n)) : measure b (t.take n) = some (kind, n) := by
  rw [measure_of_plain hp] at hm
  rw [measure_of_plain (hp.take n)]
  by_cases hword : isWordStart b
  · rw [if_pos hword] at hm ⊢
    obtain ⟨rfl, rfl⟩ := Prod.mk.inj (Option.some.inj hm)
    rw [span_take, Nat.min_self, List.take_take, Nat.min_self]
  rw [if_neg hword] at hm ⊢
  by_cases hdigit : Text.isDigit b
  · rw [if_pos hdigit] at hm ⊢
    have hnumeral : numeral b t = (kind, n) := Option.some.inj hm
    have h := numeral_take b t
    rw [hnumeral] at h
    exact congrArg some h
  rw [if_neg hdigit] at hm ⊢
  cases hdots : dots? b t with
  | some r =>
    rw [hdots] at hm
    obtain rfl : r = (kind, n) := Option.some.inj hm
    rw [dots?_take hdots]
    rfl
  | none =>
    rw [hdots] at hm
    have hsymbolic : symbolic b t = (kind, n) := Option.some.inj hm
    have h := symbolic_take b t
    rw [hsymbolic] at h
    rw [dots?_take_eq_none hdots]
    exact congrArg some h

/-! ### Literals and comments -/

/-- What comes instead after a lexeme of `n` bytes of `t`: nothing, or a line feed if the lexeme is not cut off there by
a zero byte or the end of the text. -/
def Follows (t : Text) (n : Nat) (v : Text) : Prop :=
  v = [] ∨ v.head? = some 0x0a ∧ ∃ c ∈ (t.drop n).head?, c ≠ 0

variable {t v : Text} {n : Nat}

theorem Follows.apart (h : Follows t n v) : Apart v := by
  intro c hc
  rcases h with rfl | ⟨hv, -⟩
  · cases hc
  · obtain rfl : c = 0x0a := Option.some.inj (hc.symm.trans hv)
    decide

theorem Follows.head_ne (h : Follows t n v) {c : UInt8} (hc : c ≠ 0x0a) : v.head? ≠ some c := by
  rcases h with rfl | ⟨hv, -⟩
  · simp
  · rw [hv]
    exact fun heq => hc (Option.some.inj heq).symm

/-- Before a zero byte nothing comes instead. -/
theorem Follows.eq_nil (h : Follows t n v) (hcut : ∀ c ∈ (t.drop n).head?, c = 0) : v = [] := by
  rcases h with rfl | ⟨-, c, hc, hz⟩
  · rfl
  · exact absurd (hcut c hc) hz

theorem lineRest_take_append (h : Follows t n v) (hn : lineRest t = n) : lineRest (t.take n ++ v) = n := by
  have hstop : lineRest v = 0 := by
    cases v with
    | nil => rfl
    | cons c v =>
      rw [lineRest_cons, if_pos]
      by_contra hc
      exact h.head_ne (fun heq => hc (.inl heq)) rfl
  subst hn
  clear h
  induction t with
  | nil => exact hstop
  | cons b t ih =>
    rw [lineRest_cons]
    split
    · exact hstop
    · rename_i hb
      rw [List.take_succ_cons, List.cons_append, lineRest_cons, if_neg hb, ih]

theorem rawRest_take_append (h : Follows t n v) (hn : rawRest t = n) : rawRest (t.take n ++ v) = n := by
  induction t generalizing n with
  | nil =>
    obtain rfl := h.eq_nil (by simp)
    rw [List.take_nil, List.append_nil, hn]
  | cons b t ih =>
    rw [rawRest] at hn
    split at hn
    · rename_i hq
      subst hn
      rw [List.take_succ_cons, List.cons_append, rawRest, if_pos hq]
    · rename_i hq
      split at hn
      · rename_i hz
        subst hn
        obtain rfl := h.eq_nil (by simpa using hz)
        rfl
      · rename_i hz
        subst hn
        rw [List.take_succ_cons, List.cons_append, rawRest, if_neg hq, if_neg hz, ih h rfl]

theorem blockRest_take_append (h : Follows t n v) (hn : blockRest t = n) : blockRest (t.take n ++ v) = n := by
  induction t generalizing n with
  | nil =>
    obtain rfl := h.eq_nil (by simp)
    rw [List.take_nil, List.append_nil, hn]
  | cons b t ih =>
    rw [blockRest_cons] at hn
    split at hn
    · rename_i hclose
      obtain ⟨rest, rfl⟩ := List.head?_eq_some_iff.1 hclose.2
      subst hn
      rw [List.take_succ_cons, List.cons_append, blockRest_cons, if_pos ⟨hclose.1, rfl⟩]
    · rename_i hclose
      split at hn
      · rename_i hz
        subst hn
        obtain rfl := h.eq_nil (by simpa using hz)
        rfl
      · rename_i hz
        subst hn
        have hclose' : ¬ (b = 0x2a ∧ (t.take (blockRest t) ++ v).head? = some 0x2f) := by
          rintro ⟨hb, hhead⟩
          cases htake : t.take (blockRest t) with
          | nil =>
            rw [htake] at hhead
            exact h.head_ne (by decide) hhead
          | cons c u =>
            rw [htake] at hhead
            exact hclose ⟨hb, head?_of_take (k := blockRest t) (by rw [htake]; exact hhead)⟩
        rw [List.take_succ_cons, List.cons_append, blockRest_cons, if_neg hclose', if_neg hz, ih h rfl]

theorem quotedRest_take_append {quote : UInt8} (hq : quote = 0x22 ∨ quote = 0x27) (h : v = [] ∨ v.head? = some 0x0a)
    (hn : quotedRest quote t = some n) : quotedRest quote (t.take n ++ v) = some n := by
  have hstop : quotedRest quote v = some 0 := by
    rcases h with rfl | hv
    · rfl
    · obtain ⟨w, rfl⟩ := List.head?_eq_some_iff.1 hv
      rw [quotedRest_cons (by decide), if_neg (by rcases hq with rfl | rfl <;> decide), if_pos (.inr rfl)]
  induction t using quoted_induction generalizing n with
  | nil =>
    obtain rfl := Option.some.inj hn
    exact hstop
  | cut => cases hn
  | escape c t ih =>
    obtain ⟨m, hm, rfl⟩ := Option.map_eq_some_iff.1 hn
    rw [List.take_succ_cons, List.take_succ_cons, List.cons_append, List.cons_append, quotedRest, if_pos rfl, ih hm]
    rfl
  | plain b t hb ih =>
    rw [quotedRest_cons hb] at hn
    split at hn
    · rename_i hend
      obtain rfl := Option.some.inj hn
      rw [List.take_succ_cons, List.cons_append, quotedRest_cons hb, if_pos hend]
    · rename_i hend
      split at hn
      · obtain rfl := Option.some.inj hn
        exact hstop
      · rename_i hplain
        obtain ⟨m, hm, rfl⟩ := Option.map_eq_some_iff.1 hn
        rw [List.take_succ_cons, List.cons_append, quotedRest_cons hb, if_neg hend, if_neg hplain, ih hm]
        rfl

/-! ### All lexemes -/

theorem lineKind_take_append (h : Follows t (lineRest t) v) : lineKind (t.take (lineRest t) ++ v) = lineKind t := by
  unfold lineKind
  have hiff : (t.take (lineRest t) ++ v).head? = some 0x2f ↔ t.head? = some 0x2f := by
    cases t with
    | nil => simpa using h.head_ne (by decide)
    | cons b t =>
      rw [lineRest_cons] at h ⊢
      split
      · rename_i hb
        refine iff_of_false (h.head_ne (by decide)) ?_
        rcases hb with rfl | rfl <;> simp
      · simp
  simp only [hiff]

/-- A lexeme is read the same from its own bytes, whatever comes instead of what followed it. -/
theorem measure_take_append {b : UInt8} {kind : TokenKind} (hm : measure b t = some (kind, n)) (h : Follows t n v) :
    measure b (t.take n ++ v) = some (kind, n) := by
  cases opening b t with
  | line t =>
    rw [measure_line] at hm
    obtain ⟨rfl, rfl⟩ := Prod.mk.inj (Option.some.inj hm)
    have h : Follows t (lineRest t) v := h
    rw [List.take_succ_cons, List.cons_append, measure_line, lineRest_take_append h rfl, lineKind_take_append h]
  | block t =>
    rw [measure_block] at hm
    obtain ⟨rfl, rfl⟩ := Prod.mk.inj (Option.some.inj hm)
    have h : Follows t (blockRest t) v := h
    rw [List.take_succ_cons, List.cons_append, measure_block, blockRest_take_append h rfl]
  | quoted _ _ hq =>
    rw [measure_quoted hq] at hm
    obtain ⟨m, hrest, heq⟩ := Option.map_eq_some_iff.1 hm
    obtain ⟨rfl, rfl⟩ := Prod.mk.inj heq
    rw [measure_quoted hq, quotedRest_take_append hq (h.imp_right And.left) hrest]
    rfl
  | raw _ =>
    rw [measure_raw] at hm
    obtain ⟨rfl, rfl⟩ := Prod.mk.inj (Option.some.inj hm)
    rw [measure_raw, rawRest_take_append h rfl]
  | plain _ _ hp => rw [measure_append (hp.take n) h.apart, measure_take_of_plain hp hm]

end Lexeme

open Lexeme

/-! ### Texts and their lexemes -/

/-- The lexemes of a text, comments included, each with its kind and bytes.  They end where a zero byte does. -/
inductive Lexed : Text → List (TokenKind × Text) → Prop
  | nil : Lexed [] []
  | gap {b : UInt8} {t : Text} {ls : List (TokenKind × Text)} (hgap : isGap b) (h : Lexed t ls) : Lexed (b :: t) ls
  | zero (t : Text) : Lexed (0 :: t) []
  | lexeme {b : UInt8} {t : Text} {ls : List (TokenKind × Text)} {kind : TokenKind} {n : Nat} (hgap : isGap b = false)
      (hb : b ≠ 0) (hm : measure b t = some (kind, n)) (h : Lexed (t.drop n) ls) :
      Lexed (b :: t) ((kind, b :: t.take n) :: ls)

namespace Lexed

variable {t : Text} {ls : List (TokenKind × Text)}

/-- A text with lexemes is not cut off at its beginning. -/
theorem head_ne_zero (h : Lexed t ls) (hls : ls ≠ []) : ∃ c ∈ t.head?, c ≠ 0 := by
  cases h with
  | nil => exact absurd rfl hls
  | @gap b _ _ hgap _ =>
    refine ⟨b, rfl, ?_⟩
    rintro rfl
    cases hgap
  | zero _ => exact absurd rfl hls
  | lexeme _ hb _ _ => exact ⟨_, rfl, hb⟩

/-- The lexemes of a text, each on a line of its own, are the lexemes of these lines. -/
theorem respaced (h : Lexed t ls) : Lexed (Text.join [0x0a] (ls.map Prod.snd)) ls := by
  induction h with
  | nil => exact .nil
  | gap _ _ ih => exact ih
  | zero _ => exact .nil
  | @lexeme b t ls kind n hgap hb hm h ih =>
    have hn : (b :: t.take n).length = 1 + n := by
      rw [List.length_cons, List.length_take, Nat.min_eq_left (measure_le hm), Nat.add_comm]
    by_cases hls : ls = []
    · subst hls
      have hown := measure_take_append hm (.inl rfl)
      rw [List.append_nil] at hown
      have hnone : Lexed ((t.take n).drop n) [] := by
        rw [List.drop_take_self]
        exact .nil
      have hlexeme := Lexed.lexeme hgap hb hown hnone
      rwa [List.take_take, Nat.min_self] at hlexeme
    · rw [List.map_cons, Text.join_cons _ _ (by simpa using hls), List.append_assoc, List.singleton_append,
        List.cons_append]
      generalize Text.join [0x0a] (ls.map Prod.snd) = w at ih
      have hown := measure_take_append hm (v := 0x0a :: w) (.inr ⟨rfl, h.head_ne_zero hls⟩)
      have hlength : (t.take n).length = n := List.length_take_of_le (measure_le hm)
      have hrest : (t.take n ++ 0x0a :: w).drop n = 0x0a :: w := List.drop_left' hlength
      have hbytes : (t.take n ++ 0x0a :: w).take n = t.take n := List.take_left' hlength
      have hlexeme := Lexed.lexeme hgap hb hown (hrest.symm ▸ Lexed.gap rfl ih)
      rwa [hbytes] at hlexeme

end Lexed

/-! ### Tokens and lexemes -/

namespace Token

/-- What counts of a token when its place does not. -/
def unplaced (t : Token) : TokenKind × Text := (t.kind, t.literal)

variable {source : Text}

theorem scanFrom_of_dropWhile_nil (total : Nat) (m : Mark) {t : Text} (h : t.dropWhile isGap = []) :
    scanFrom total m t = .ok [atEnd total (m.advance (t.takeWhile isGap))] := by
  rw [scanFrom]
  split
  · rfl
  · rename_i h'
    cases h.symm.trans h'

theorem scanFrom_of_dropWhile_cons (total : Nat) (m : Mark) {t : Text} {b : UInt8} {rest : Text}
    (h : t.dropWhile isGap = b :: rest) : scanFrom total m t =
      let m := m.advance (t.takeWhile isGap)
      if b = 0 then .ok [atEnd total m]
      else match measure b rest with
        | none => .error (.cutBeyondEnd (total + 1) total)
        | some (kind, n) => (scanFrom total (m.advance (b :: rest.take n)) (rest.drop n)).map
            (⟨kind, Lexeme.literal kind (b :: rest.take n), m.position, m.offset,
              (m.advance (b :: rest.take n)).offset⟩ :: ·) := by
  rw [scanFrom]
  split
  · rename_i h'
    cases h.symm.trans h'
  · rename_i h'
    obtain ⟨rfl, rfl⟩ := List.cons.inj (h.symm.trans h')
    rfl

theorem scanFrom_nil (total : Nat) (m : Mark) : scanFrom total m [] = .ok [atEnd total m] :=
  scanFrom_of_dropWhile_nil total m rfl

theorem scanFrom_gap (total : Nat) (m : Mark) {b : UInt8} {t : Text} (hgap : isGap b) :
    scanFrom total m (b :: t) = scanFrom total (m.step b) t := by
  have hrest : (b :: t).dropWhile isGap = t.dropWhile isGap := List.dropWhile_cons_of_pos hgap
  have hmark : m.advance ((b :: t).takeWhile isGap) = (m.step b).advance (t.takeWhile isGap) := by
    rw [List.takeWhile_cons_of_pos hgap]
    rfl
  cases h : t.dropWhile isGap with
  | nil => rw [scanFrom_of_dropWhile_nil total m (hrest.trans h), scanFrom_of_dropWhile_nil total _ h, hmark]
  | cons c rest => rw [scanFrom_of_dropWhile_cons total m (hrest.trans h), scanFrom_of_dropWhile_cons total _ h, hmark]

theorem scanFrom_zero (total : Nat) (m : Mark) (t : Text) : scanFrom total m (0 :: t) = .ok [atEnd total m] := by
  have hdrop : (0 :: t).dropWhile isGap = 0 :: t := rfl
  rw [scanFrom_of_dropWhile_cons total m hdrop, if_pos rfl]
  rfl

theorem scanFrom_lexeme (total : Nat) (m : Mark) {b : UInt8} {t : Text} (hgap : isGap b = false) (hb : b ≠ 0)
    {kind : TokenKind} {n : Nat} (hm : measure b t = some (kind, n)) : scanFrom total m (b :: t) =
      (scanFrom total (m.advance (b :: t.take n)) (t.drop n)).map
        (⟨kind, Lexeme.literal kind (b :: t.take n), m.position, m.offset,
          (m.advance (b :: t.take n)).offset⟩ :: ·) := by
  have hgap' : ¬ isGap b := by simp [hgap]
  rw [scanFrom_of_dropWhile_cons total m (List.dropWhile_cons_of_neg hgap'), List.takeWhile_cons_of_neg hgap', hm,
    if_neg hb]
  rfl

theorem scanFrom_cut (total : Nat) (m : Mark) {b : UInt8} {t : Text} (hgap : isGap b = false) (hb : b ≠ 0)
    (hm : measure b t = none) : scanFrom total m (b :: t) = .error (.cutBeyondEnd (total + 1) total) := by
  rw [scanFrom_of_dropWhile_cons total m (List.dropWhile_cons_of_neg (by simp [hgap])), hm, if_neg hb]

/-- Reading gives the lexemes of a text. -/
theorem lexed_of_scanFrom {p t : Text} (hsource : source = p ++ t) {tokens : List Token}
    (h : scanFrom source.length (Mark.start.advance p) t = .ok tokens) : ∃ body ending, tokens = body ++ [ending] ∧
      ending.unplaced = (.eof, []) ∧ Lexed t (body.map fun s => (s.kind, s.bytes source)) ∧
      ∀ s ∈ body, s.kind ≠ .eof ∧ s.literal = Lexeme.literal s.kind (s.bytes source) := by
  induction t using Text.scan_induction generalizing p tokens with
  | nil =>
    rw [scanFrom_nil] at h
    obtain rfl := Except.ok.inj h
    exact ⟨[], _, rfl, rfl, .nil, by simp⟩
  | gap b t hgap ih =>
    have hmark : (Mark.start.advance p).step b = Mark.start.advance (p ++ [b]) := (Mark.advance_append _ p [b]).symm
    rw [scanFrom_gap _ _ hgap, hmark] at h
    obtain ⟨body, ending, htokens, hending, hlexed, hbody⟩ := ih (by simp [hsource]) h
    exact ⟨body, ending, htokens, hending, .gap hgap hlexed, hbody⟩
  | zero t =>
    rw [scanFrom_zero] at h
    obtain rfl := Except.ok.inj h
    exact ⟨[], _, rfl, rfl, .zero t, by simp⟩
  | cut b t hgap hb hm =>
    rw [scanFrom_cut _ _ hgap hb hm] at h
    cases h
  | lexeme b t kind n hgap hb hm ih =>
    have hcut : source = p ++ (b :: t.take n) ++ t.drop n := by simp [hsource]
    rw [scanFrom_lexeme _ _ hgap hb hm, ← Mark.advance_append] at h
    cases hrest : scanFrom source.length (Mark.start.advance (p ++ b :: t.take n)) (t.drop n) with
    | error e =>
      rw [hrest] at h
      cases h
    | ok ts =>
      rw [hrest] at h
      obtain rfl := Except.ok.inj h
      obtain ⟨body, ending, rfl, hending, hlexed, hbody⟩ := ih hcut hrest
      rw [Mark.advance_start, Mark.advance_start]
      have hbytes : source.slice p.length (p ++ b :: t.take n).length = b :: t.take n := by
        rw [hcut, Text.slice_append]
      refine ⟨_ :: body, ending, rfl, hending, ?_, List.forall_mem_cons.2 ⟨⟨measure_ne_eof hm, ?_⟩, hbody⟩⟩
      · rw [List.map_cons, bytes, hbytes]
        exact .lexeme hgap hb hm hlexed
      · rw [bytes, hbytes]

/-- The lexemes of a text are what reading gives, wherever it starts. -/
theorem scanFrom_of_lexed {t : Text} {ls : List (TokenKind × Text)} (h : Lexed t ls) (total : Nat) (m : Mark) :
    ∃ tokens, scanFrom total m t = .ok tokens ∧
      tokens.map unplaced = ls.map (fun l => (l.1, Lexeme.literal l.1 l.2)) ++ [(.eof, [])] := by
  induction h generalizing m with
  | nil => exact ⟨_, scanFrom_nil total m, rfl⟩
  | gap hgap _ ih =>
    rw [scanFrom_gap total m hgap]
    exact ih _
  | zero t => exact ⟨_, scanFrom_zero total m t, rfl⟩
  | lexeme hgap hb hm _ ih =>
    obtain ⟨tokens, hscan, htokens⟩ := ih (m.advance _)
    rw [scanFrom_lexeme total m hgap hb hm, hscan]
    exact ⟨_, rfl, by rw [List.map_cons, htokens]; rfl⟩

/-- The bytes of the tokens of a source, its end apart. -/
def lexemes (source : Text) (tokens : List Token) : List Text :=
  (tokens.filter fun t => t.kind ≠ .eof).map (bytes source)

/-- The lexemes of a source, each on a line of its own, are read as the same tokens. -/
theorem exists_respaced {tokens : List Token} (h : scan source = .ok tokens) : ∃ tokens',
    scan (Text.join [0x0a] (lexemes source tokens)) = .ok tokens' ∧ tokens'.map unplaced = tokens.map unplaced := by
  obtain ⟨body, ending, rfl, hending, hlexed, hbody⟩ := lexed_of_scanFrom (p := []) rfl h
  have hkind : ending.kind = .eof := congrArg Prod.fst hending
  have hlexemes : lexemes source (body ++ [ending]) = (body.map fun s => (s.kind, s.bytes source)).map Prod.snd := by
    have hfilter : body.filter (fun t => decide (t.kind ≠ .eof)) = body :=
      List.filter_eq_self.2 fun s hs => by simpa using (hbody s hs).1
    rw [lexemes, List.filter_append, hfilter]
    simp [hkind, Function.comp_def]
  rw [hlexemes]
  obtain ⟨tokens', hscan, htokens⟩ := scanFrom_of_lexed hlexed.respaced _ Mark.start
  refine ⟨tokens', hscan, ?_⟩
  rw [htokens, List.map_append, List.map_singleton, hending, List.map_map]
  refine congrArg (· ++ _) (List.map_congr_left fun s hs => ?_)
  rw [unplaced, (hbody s hs).2]
  rfl

/-- Numerals and points side by side, an escaped line feed, comments of all kinds and an open literal. -/
def crowded : Text :=
  Text.ofString "0x1g 1.5.2e+x...y..&^=<<\"a\\\nb\"'c\n/* d *//// e\n`f\n"

theorem respaced_crowded : ∃ tokens tokens', scan crowded = .ok tokens ∧
    scan (Text.join [0x0a] (lexemes crowded tokens)) = .ok tokens' ∧
    tokens'.map unplaced = tokens.map unplaced := by
  have hok : (scan crowded).isOk = true := by decide +kernel
  cases hscan : scan crowded with
  | error e => simp [hscan, Except.isOk, Except.toBool] at hok
  | ok tokens =>
    obtain ⟨tokens', h⟩ := exists_respaced hscan
    exact ⟨tokens, tokens', rfl, h⟩

end Token

end MeaningForest

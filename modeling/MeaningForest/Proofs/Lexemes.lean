import MeaningForest.Token.Scan
import Mathlib.Data.List.Infix
import Mathlib.Data.List.Find

/-!
# Lexemes within a text

How far a lexeme reaches depends on the bytes up to its end only.  A word, a numeral or an operator ends before white
space, brackets, the comma and the semicolon (`measure_append`).  A literal or a comment has its own end, which may be
missing: `ends` says whether it is there.  If it is, what stands apart after the text does not matter
(`measure_append_of_ends`); if it is not, the lexeme takes all that is left (`measure_of_not_ends`), and text without
the marks of literals and comments does not change this (`ends_append_inert`).
-/

namespace MeaningForest.Lexeme

/-! ### Lexemes that are neither literals nor comments -/

/-- The bytes that never belong to the token before them: the bytes between tokens, brackets, the comma and the
semicolon. -/
def breaks : List UInt8 := [0x20, 0x09, 0x0a, 0x0d, 0x28, 0x29, 0x5b, 0x5d, 0x7b, 0x7d, 0x2c, 0x3b]

/-- A text is empty or begins with a break. -/
def Apart (v : Text) : Prop := ∀ c ∈ v.head?, c ∈ breaks

/-- The marks that open a literal. -/
def quotes : List UInt8 := [0x22, 0x27, 0x60]

/-- A byte opens neither a literal nor a comment. -/
def Plain (b : UInt8) (t : Text) : Prop :=
  b ∉ quotes ∧ ¬ (b = 0x2f ∧ (t.head? = some 0x2f ∨ t.head? = some 0x2a))

theorem Apart.head_ne {v : Text} (hv : Apart v) {c : UInt8} (hc : c ∉ breaks) : v.head? ≠ some c :=
  fun h => hc (hv c h)

/-- What holds of no break does not hold of the first byte of a text that stands apart. -/
theorem Apart.not_head {c : UInt8} {v : Text} (hv : Apart (c :: v)) {p : UInt8 → Bool} (hp : breaks.all (!p ·)) :
    p c = false := by
  simpa using List.all_eq_true.1 hp c (hv c rfl)

theorem span_append {p : UInt8 → Bool} (hp : breaks.all (!p ·)) (u : Text) {v : Text} (hv : Apart v) :
    span p (u ++ v) = span p u := by
  have hnone : v.takeWhile p = [] := by
    cases v with
    | nil => rfl
    | cons c v => exact List.takeWhile_cons_of_neg (by simp [hv.not_head hp])
  unfold span
  rw [List.takeWhile_append]
  split
  · rename_i h
    rw [hnone, List.append_nil, h]
  · rfl

theorem span_le (p : UInt8 → Bool) (t : Text) : span p t ≤ t.length := (List.takeWhile_prefix p).length_le

theorem startsWith_append {op : Text} (hop : op.all (!breaks.contains ·)) (u : Text) {v : Text} (hv : Apart v) :
    Text.startsWith (u ++ v) op = Text.startsWith u op := by
  unfold Text.startsWith
  induction op generalizing u with
  | nil => simp
  | cons c op ih =>
    cases u with
    | nil =>
      cases v with
      | nil => rfl
      | cons d v =>
        have hne : c ≠ d := by
          rintro rfl
          simp [hv c rfl] at hop
        simp [List.isPrefixOf, hne]
    | cons d u =>
      simp only [List.cons_append, List.isPrefixOf]
      rw [ih (Bool.and_eq_true_iff.1 hop).2 u]

theorem head?_append_eq {c : UInt8} (hc : c ∉ breaks) (u : Text) {v : Text} (hv : Apart v) :
    (u ++ v).head? = some c ↔ u.head? = some c := by
  cases u with
  | nil => simpa using hv.head_ne hc
  | cons d u => simp

theorem fraction_cons (d : UInt8) (t : Text) : fraction (d :: t) =
    if d = 0x2e ∧ (t.head?.map Text.isDigit).getD false then 1 + span isNumeralPart t else 0 := by
  by_cases hd : d = 0x2e
  · subst hd
    cases t with
    | nil => rfl
    | cons c t => simp [fraction]
  · have hnone : fraction (d :: t) = 0 := by
      unfold fraction
      split
      · rename_i heq
        exact absurd (List.cons.inj heq).1 hd
      · rfl
    rw [hnone, if_neg (fun h => hd h.1)]

theorem head?_map_append {p : UInt8 → Bool} (hp : breaks.all (!p ·)) (u : Text) {v : Text} (hv : Apart v) :
    ((u ++ v).head?.map p).getD false = (u.head?.map p).getD false := by
  cases u with
  | nil =>
    cases v with
    | nil => rfl
    | cons c v => simp [hv.not_head hp]
  | cons d u => rfl

theorem fraction_append (u : Text) {v : Text} (hv : Apart v) : fraction (u ++ v) = fraction u := by
  cases u with
  | nil =>
    cases v with
    | nil => rfl
    | cons c v =>
      have hne : c ≠ 0x2e := fun h => absurd (hv c rfl) (by rw [h]; decide)
      rw [List.nil_append, fraction_cons, if_neg (fun h => hne h.1)]
      rfl
  | cons d u =>
    rw [List.cons_append, fraction_cons, fraction_cons, head?_map_append (by decide) u hv,
      span_append (by decide) u hv]

theorem exponent_cons (e : UInt8) (t : Text) : exponent (e :: t) =
    if e = 0x65 ∨ e = 0x45 then
      if t.head? = some 0x2b ∨ t.head? = some 0x2d then 2 + span Text.isDigit t.tail else 1 + span Text.isDigit t
    else 0 := by
  cases t with
  | nil => rfl
  | cons s t => simp [exponent]

theorem exponent_append (u : Text) {v : Text} (hv : Apart v) : exponent (u ++ v) = exponent u := by
  cases u with
  | nil =>
    cases v with
    | nil => rfl
    | cons c v =>
      have hne : ¬ (c = 0x65 ∨ c = 0x45) := by
        have hc := hv c rfl
        rintro (rfl | rfl)
        · exact absurd hc (by decide)
        · exact absurd hc (by decide)
      rw [List.nil_append, exponent_cons, if_neg hne]
      rfl
  | cons e u =>
    have hplus : (u ++ v).head? = some 0x2b ↔ u.head? = some 0x2b := head?_append_eq (by decide) u hv
    have hminus : (u ++ v).head? = some 0x2d ↔ u.head? = some 0x2d := head?_append_eq (by decide) u hv
    have hall := span_append (p := Text.isDigit) (by decide) u hv
    rw [List.cons_append, exponent_cons, exponent_cons]
    simp only [hplus, hminus, hall]
    cases u with
    | nil => simp
    | cons s u => rw [List.cons_append, List.tail_cons, List.tail_cons, span_append (by decide) u hv]

theorem fraction_le (t : Text) : fraction t ≤ t.length := by
  cases t with
  | nil => exact Nat.le_refl _
  | cons d t =>
    have := span_le isNumeralPart t
    rw [fraction_cons, List.length_cons]
    split <;> omega

theorem exponent_le (t : Text) : exponent t ≤ t.length := by
  cases t with
  | nil => exact Nat.le_refl _
  | cons e t =>
    have hall := span_le Text.isDigit t
    have htail := span_le Text.isDigit t.tail
    rw [exponent_cons, List.length_cons]
    split
    · split
      · rename_i hsign
        have hpos : 0 < t.length := by
          cases t with
          | nil => simp at hsign
          | cons s t => simp
        rw [List.length_tail] at htail
        omega
      · omega
    · exact Nat.zero_le _

theorem numeral_append (b : UInt8) (u : Text) {v : Text} (hv : Apart v) : numeral b (u ++ v) = numeral b u := by
  have hmark := head?_map_append (p := isBaseMark) (by decide) u hv
  have hwhole := span_append (p := isNumeralPart) (by decide) u hv
  have hle := span_le isNumeralPart u
  have hfrac := fraction_le (u.drop (span isNumeralPart u))
  rw [List.length_drop] at hfrac
  unfold numeral
  rw [hmark]
  split
  · rename_i hbase
    cases u with
    | nil => simp at hbase
    | cons d u =>
      simp only [List.cons_append, List.drop_succ_cons, List.drop_zero, span_append (p := isHexPart) (by decide) u hv]
  · have hcut : (u ++ v).drop (span isNumeralPart u) = u.drop (span isNumeralPart u) ++ v :=
      List.drop_append_of_le_length hle
    have hcut' : (u ++ v).drop (span isNumeralPart u + fraction (u.drop (span isNumeralPart u))) =
        u.drop (span isNumeralPart u + fraction (u.drop (span isNumeralPart u))) ++ v :=
      List.drop_append_of_le_length (by omega)
    simp only [hwhole, hcut, fraction_append _ hv, hcut', exponent_append _ hv]

theorem symbolic_append (b : UInt8) (u : Text) {v : Text} (hv : Apart v) : symbolic b (u ++ v) = symbolic b u := by
  have hops : operators.all (·.all (!breaks.contains ·)) := by decide
  have hfind : (operators.find? fun op => Text.startsWith (b :: (u ++ v)) op) =
      operators.find? fun op => Text.startsWith (b :: u) op := by
    refine List.find?_congr fun op hop => ?_
    exact startsWith_append (List.all_eq_true.1 hops op hop) (b :: u) hv
  unfold symbolic
  rw [hfind]

theorem dots?_append (b : UInt8) (u : Text) {v : Text} (hv : Apart v) : dots? b (u ++ v) = dots? b u := by
  unfold dots?
  rw [startsWith_append (by decide) u hv]
  simp only [head?_append_eq (c := 0x2e) (by decide) u hv]

theorem Plain.append {b : UInt8} {u v : Text} (h : Plain b u) (hv : Apart v) : Plain b (u ++ v) := by
  refine ⟨h.1, ?_⟩
  rw [head?_append_eq (by decide) u hv, head?_append_eq (by decide) u hv]
  exact h.2

theorem measure_of_plain {b : UInt8} {t : Text} (h : Plain b t) : measure b t =
    if isWordStart b then some (.ofWord (b :: t.take (span isWordPart t)), span isWordPart t)
    else if Text.isDigit b then some (numeral b t)
    else some ((dots? b t).getD (symbolic b t)) := by
  obtain ⟨hq, hc⟩ := h
  simp only [quotes, List.mem_cons, List.not_mem_nil, or_false, not_or] at hq
  have h1 : ¬ (b = 0x2f ∧ t.head? = some 0x2f) := fun h => hc ⟨h.1, .inl h.2⟩
  have h2 : ¬ (b = 0x2f ∧ t.head? = some 0x2a) := fun h => hc ⟨h.1, .inr h.2⟩
  rw [measure, if_neg h1, if_neg h2, if_neg hq.1, if_neg hq.2.1, if_neg hq.2.2]
  cases dots? b t <;> rfl

/-- A plain lexeme ends before what stands apart. -/
theorem measure_append {b : UInt8} {u v : Text} (h : Plain b u) (hv : Apart v) : measure b (u ++ v) = measure b u := by
  have hspan := span_append (p := isWordPart) (by decide) u hv
  rw [measure_of_plain h, measure_of_plain (h.append hv), hspan, numeral_append b u hv, dots?_append b u hv,
    symbolic_append b u hv, List.take_append_of_le_length (span_le _ _)]

/-! ### Lengths of lexemes -/

theorem numeral_le (b : UInt8) (t : Text) : (numeral b t).2 ≤ t.length := by
  unfold numeral
  split
  · rename_i hbase
    cases t with
    | nil => simp at hbase
    | cons d t =>
      have := span_le isHexPart t
      simp only [List.drop_succ_cons, List.drop_zero, List.length_cons]
      omega
  · have hwhole := span_le isNumeralPart t
    have hfrac := fraction_le (t.drop (span isNumeralPart t))
    have hexp := exponent_le (t.drop (span isNumeralPart t + fraction (t.drop (span isNumeralPart t))))
    rw [List.length_drop] at hfrac hexp
    dsimp only
    omega

theorem symbolic_le (b : UInt8) (t : Text) : (symbolic b t).2 ≤ t.length := by
  unfold symbolic
  split
  · rename_i op hop
    have hprefix : op <+: b :: t := by simpa [Text.startsWith] using List.find?_some hop
    have := hprefix.length_le
    rw [List.length_cons] at this
    dsimp only
    omega
  · exact Nat.zero_le _

theorem dots?_le {b : UInt8} {t : Text} {r : TokenKind × Nat} (h : dots? b t = some r) : r.2 ≤ t.length := by
  unfold dots? at h
  split at h
  · rename_i hdots
    split at h
    · rename_i hmore
      have hprefix : [0x2e, 0x2e] <+: t := by simpa [Text.startsWith] using hmore
      obtain rfl := Option.some.inj h
      exact hprefix.length_le
    · obtain rfl := Option.some.inj h
      cases t with
      | nil => simp at hdots
      | cons c t => simp
  · cases h

theorem plain_le {b : UInt8} {t : Text} (h : Plain b t) {kind : TokenKind} {n : Nat}
    (hm : measure b t = some (kind, n)) : n ≤ t.length := by
  rw [measure_of_plain h] at hm
  split at hm
  · obtain ⟨-, rfl⟩ := Prod.mk.inj (Option.some.inj hm)
    exact span_le _ _
  · split at hm
    · have hn : (numeral b t).2 = n := congrArg Prod.snd (Option.some.inj hm)
      exact hn ▸ numeral_le b t
    · have hn : ((dots? b t).getD (symbolic b t)).2 = n := congrArg Prod.snd (Option.some.inj hm)
      cases hd : dots? b t with
      | none =>
        rw [hd] at hn
        exact hn ▸ symbolic_le b t
      | some r =>
        rw [hd] at hn
        exact hn ▸ dots?_le hd

/-! ### Literals and comments -/

/-- Whether a line comment ends within the text. -/
def lineEnds (t : Text) : Bool := t.any fun b => b == 0x0a || b == 0

/-- Whether a block comment ends within the text. -/
def blockEnds : Text → Bool
  | [] => false
  | 0x2a :: 0x2f :: _ => true
  | b :: t => b == 0 || blockEnds t

/-- Whether a raw literal ends within the text. -/
def rawEnds (t : Text) : Bool := t.any fun b => b == 0x60 || b == 0

/-- Whether a literal between `quote` marks ends within the text. -/
def quotedEnds (quote : UInt8) : Text → Bool
  | [] => false
  | [b] => b != 0x5c && (b == quote || b == 0 || b == 0x0a)
  | b :: c :: t =>
    if b = 0x5c then quotedEnds quote t
    else b == quote || b == 0 || b == 0x0a || quotedEnds quote (c :: t)

/-- Whether the lexeme that starts with `b` ends within the text after it.  Only literals and comments can fail to. -/
def ends (b : UInt8) (t : Text) : Bool :=
  if b = 0x2f ∧ t.head? = some 0x2f then lineEnds t
  else if b = 0x2f ∧ t.head? = some 0x2a then blockEnds (t.drop 1)
  else if b = 0x22 ∨ b = 0x27 then quotedEnds b t
  else if b = 0x60 then rawEnds t
  else true

theorem lineRest_cons (b : UInt8) (t : Text) : lineRest (b :: t) = if b = 0x0a ∨ b = 0 then 0 else lineRest t + 1 := by
  unfold lineRest span
  rw [List.takeWhile_cons]
  by_cases hb : b = 0x0a ∨ b = 0
  · rcases hb with rfl | rfl <;> rfl
  · obtain ⟨h1, h2⟩ := not_or.1 hb
    simp [h1, h2]

theorem lineRest_append {t : Text} (h : lineEnds t) (v : Text) :
    lineRest (t ++ v) = lineRest t ∧ lineRest t ≤ t.length := by
  induction t with
  | nil => cases h
  | cons b t ih =>
    rw [List.cons_append, lineRest_cons, lineRest_cons, List.length_cons]
    split
    · exact ⟨rfl, Nat.zero_le _⟩
    · rename_i hb
      obtain ⟨h1, h2⟩ := not_or.1 hb
      obtain ⟨heq, hle⟩ := ih (by simpa [lineEnds, h1, h2] using h)
      exact ⟨by rw [heq], Nat.succ_le_succ hle⟩

theorem rawRest_append {t : Text} (h : rawEnds t) (v : Text) : rawRest (t ++ v) = rawRest t ∧ rawRest t ≤ t.length := by
  induction t with
  | nil => cases h
  | cons b t ih =>
    rw [List.cons_append, rawRest, rawRest, List.length_cons]
    split
    · exact ⟨rfl, Nat.succ_le_succ (Nat.zero_le _)⟩
    · rename_i hq
      split
      · exact ⟨rfl, Nat.zero_le _⟩
      · rename_i hz
        obtain ⟨heq, hle⟩ := ih (by simpa [rawEnds, hq, hz] using h)
        exact ⟨by rw [heq], Nat.succ_le_succ hle⟩

theorem blockRest_cons (b : UInt8) (t : Text) : blockRest (b :: t) =
    if b = 0x2a ∧ t.head? = some 0x2f then 2 else if b = 0 then 0 else blockRest t + 1 := by
  rw [blockRest.eq_def]
  split
  · rename_i heq
    cases heq
  · rename_i heq
    obtain ⟨rfl, rfl⟩ := List.cons.inj heq
    rfl
  · rename_i hnot heq
    obtain ⟨rfl, rfl⟩ := List.cons.inj heq
    have hopen : ¬ (b = 0x2a ∧ t.head? = some 0x2f) := by
      rintro ⟨rfl, ht⟩
      obtain ⟨rest, rfl⟩ := List.head?_eq_some_iff.1 ht
      exact hnot rest rfl rfl
    rw [if_neg hopen]

theorem blockEnds_cons (b : UInt8) (t : Text) : blockEnds (b :: t) =
    if b = 0x2a ∧ t.head? = some 0x2f then true else b == 0 || blockEnds t := by
  rw [blockEnds.eq_def]
  split
  · rename_i heq
    cases heq
  · rename_i heq
    obtain ⟨rfl, rfl⟩ := List.cons.inj heq
    rfl
  · rename_i hnot heq
    obtain ⟨rfl, rfl⟩ := List.cons.inj heq
    have hopen : ¬ (b = 0x2a ∧ t.head? = some 0x2f) := by
      rintro ⟨rfl, ht⟩
      obtain ⟨rest, rfl⟩ := List.head?_eq_some_iff.1 ht
      exact hnot rest rfl rfl
    rw [if_neg hopen]

theorem blockRest_append {t : Text} (h : blockEnds t) (v : Text) :
    blockRest (t ++ v) = blockRest t ∧ blockRest t ≤ t.length := by
  induction t with
  | nil => cases h
  | cons b t ih =>
    have hhead : t ≠ [] → (t ++ v).head? = t.head? := fun hne => List.head?_append_of_ne_nil t hne
    rw [List.cons_append, blockRest_cons, blockRest_cons, List.length_cons]
    rw [blockEnds_cons] at h
    cases t with
    | nil =>
      have hz : b = 0 := by simpa [blockEnds] using h
      subst hz
      simp
    | cons c t =>
      rw [hhead (by simp)]
      split
      · exact ⟨rfl, by simp⟩
      · rename_i hclose
        rw [if_neg hclose] at h
        split
        · exact ⟨rfl, Nat.zero_le _⟩
        · rename_i hz
          obtain ⟨heq, hle⟩ := ih (by simpa [hz] using h)
          exact ⟨by rw [heq], Nat.succ_le_succ hle⟩

theorem quotedRest_cons {quote b : UInt8} (hb : b ≠ 0x5c) (t : Text) : quotedRest quote (b :: t) =
    if b = quote then some 1 else if b = 0 ∨ b = 0x0a then some 0 else (quotedRest quote t).map (· + 1) := by
  cases t with
  | nil => simp [quotedRest, hb]
  | cons c t => rw [quotedRest, if_neg hb]

theorem quotedEnds_cons {quote b : UInt8} (hb : b ≠ 0x5c) (t : Text) : quotedEnds quote (b :: t) =
    (b == quote || b == 0 || b == 0x0a || quotedEnds quote t) := by
  cases t with
  | nil => simp [quotedEnds, hb]
  | cons c t => rw [quotedEnds, if_neg hb]

/-- Induction along the bytes of a quoted literal: a backslash takes the next byte with it. -/
theorem quoted_induction {P : Text → Prop} (nil : P []) (cut : P [0x5c]) (escape : ∀ c t, P t → P (0x5c :: c :: t))
    (plain : ∀ b t, b ≠ 0x5c → P t → P (b :: t)) (t : Text) : P t := by
  induction hlen : t.length using Nat.strong_induction_on generalizing t with
  | _ len ih =>
    match t with
    | [] => exact nil
    | [b] =>
      by_cases hb : b = 0x5c
      · exact hb ▸ cut
      · exact plain b [] hb nil
    | b :: c :: t =>
      simp only [List.length_cons] at hlen
      by_cases hb : b = 0x5c
      · exact hb ▸ escape c t (ih t.length (by omega) t rfl)
      · exact plain b (c :: t) hb (ih (c :: t).length (by simp only [List.length_cons]; omega) _ rfl)

theorem quotedRest_append {quote : UInt8} {t : Text} (h : quotedEnds quote t) (v : Text) :
    quotedRest quote (t ++ v) = quotedRest quote t ∧ ∀ n ∈ quotedRest quote t, n ≤ t.length := by
  induction t using quoted_induction with
  | nil => cases h
  | cut => cases h
  | escape c t ih =>
    obtain ⟨heq, hle⟩ := ih (by simpa [quotedEnds] using h)
    simp only [List.cons_append, quotedRest, if_true, heq, List.length_cons]
    refine ⟨trivial, fun n hn => ?_⟩
    obtain ⟨m, hm, rfl⟩ := Option.map_eq_some_iff.1 hn
    exact Nat.add_le_add_right (hle m hm) 2
  | plain b t hb ih =>
    rw [List.cons_append, quotedRest_cons hb, quotedRest_cons hb, List.length_cons]
    rw [quotedEnds_cons hb] at h
    by_cases hend : b = quote
    · simp [hend]
    · by_cases hstop : b = 0 ∨ b = 0x0a
      · simp [hend, hstop]
      · obtain ⟨heq, hle⟩ := ih (by simpa [hend, not_or.1 hstop] using h)
        rw [if_neg hend, if_neg hend, if_neg hstop, if_neg hstop, heq]
        refine ⟨rfl, fun n hn => ?_⟩
        obtain ⟨m, hm, rfl⟩ := Option.map_eq_some_iff.1 hn
        exact Nat.succ_le_succ (hle m hm)

/-! ### Unfinished lexemes -/

theorem lineRest_of_not_ends {t : Text} (h : lineEnds t = false) : lineRest t = t.length := by
  induction t with
  | nil => rfl
  | cons b t ih =>
    obtain ⟨⟨hf, hz⟩, ht⟩ : (b ≠ 0x0a ∧ b ≠ 0) ∧ lineEnds t = false := by simpa [lineEnds] using h
    rw [lineRest_cons, if_neg (not_or.2 ⟨hf, hz⟩), ih ht, List.length_cons]

theorem rawRest_of_not_ends {t : Text} (h : rawEnds t = false) : rawRest t = t.length := by
  induction t with
  | nil => rfl
  | cons b t ih =>
    obtain ⟨⟨hq, hz⟩, ht⟩ : (b ≠ 0x60 ∧ b ≠ 0) ∧ rawEnds t = false := by simpa [rawEnds] using h
    rw [rawRest, if_neg hq, if_neg hz, ih ht, List.length_cons]

theorem blockRest_of_not_ends {t : Text} (h : blockEnds t = false) : blockRest t = t.length := by
  induction t with
  | nil => rfl
  | cons b t ih =>
    rw [blockEnds_cons] at h
    split at h
    · cases h
    · rename_i hclose
      obtain ⟨hz, ht⟩ : b ≠ 0 ∧ blockEnds t = false := by simpa using h
      rw [blockRest_cons, if_neg hclose, if_neg hz, ih ht, List.length_cons]

theorem quotedRest_of_not_ends {quote : UInt8} {t : Text} (h : quotedEnds quote t = false) {n : Nat}
    (hn : quotedRest quote t = some n) : n = t.length := by
  induction t using quoted_induction generalizing n with
  | nil => exact (Option.some.inj hn).symm
  | cut => cases hn
  | escape c t ih =>
    obtain ⟨m, hm, rfl⟩ := Option.map_eq_some_iff.1 hn
    rw [ih (by simpa [quotedEnds] using h) hm]
    rfl
  | plain b t hb ih =>
    obtain ⟨⟨⟨hq, hz⟩, hf⟩, ht⟩ : ((b ≠ quote ∧ b ≠ 0) ∧ b ≠ 0x0a) ∧ quotedEnds quote t = false := by
      simpa [quotedEnds_cons hb] using h
    rw [quotedRest_cons hb, if_neg hq, if_neg (not_or.2 ⟨hz, hf⟩)] at hn
    obtain ⟨m, hm, rfl⟩ := Option.map_eq_some_iff.1 hn
    rw [ih ht hm]
    rfl

/-! ### All lexemes -/

/-- What a lexeme can be, by its first bytes. -/
inductive Opening : UInt8 → Text → Prop
  | line (t : Text) : Opening 0x2f (0x2f :: t)
  | block (t : Text) : Opening 0x2f (0x2a :: t)
  | quoted (quote : UInt8) (t : Text) (h : quote = 0x22 ∨ quote = 0x27) : Opening quote t
  | raw (t : Text) : Opening 0x60 t
  | plain (b : UInt8) (t : Text) (h : Plain b t) : Opening b t

theorem opening (b : UInt8) (t : Text) : Opening b t := by
  by_cases hb : b ∈ quotes
  · simp only [quotes, List.mem_cons, List.not_mem_nil, or_false] at hb
    rcases hb with rfl | rfl | rfl
    · exact .quoted _ t (.inl rfl)
    · exact .quoted _ t (.inr rfl)
    · exact .raw t
  · by_cases hc : b = 0x2f ∧ (t.head? = some 0x2f ∨ t.head? = some 0x2a)
    · obtain ⟨rfl, ht | ht⟩ := hc
      · obtain ⟨t, rfl⟩ := List.head?_eq_some_iff.1 ht
        exact .line t
      · obtain ⟨t, rfl⟩ := List.head?_eq_some_iff.1 ht
        exact .block t
    · exact .plain b t ⟨hb, hc⟩

/-- The kind of a comment up to the end of a line, by the text after its two strokes. -/
def lineKind (t : Text) : TokenKind := if t.head? = some 0x2f then .docComment else .comment

theorem lineKind_isComment (t : Text) : (lineKind t).isComment := by
  unfold lineKind
  split <;> rfl

theorem lineKind_append (t : Text) {v : Text} (hv : Apart v) : lineKind (t ++ v) = lineKind t := by
  unfold lineKind
  simp only [head?_append_eq (c := 0x2f) (by decide) t hv]

theorem measure_line (t : Text) : measure 0x2f (0x2f :: t) = some (lineKind t, lineRest t + 1) := by
  have hdoc : Text.startsWith (0x2f :: t) [0x2f, 0x2f] = true ↔ t.head? = some 0x2f := by
    cases t with
    | nil => simp [Text.startsWith]
    | cons c t =>
      simp only [Text.startsWith, List.isPrefixOf, Bool.and_true, beq_self_eq_true, Bool.true_and, List.head?_cons,
        Option.some.injEq, beq_iff_eq]
      exact eq_comm
  rw [measure, if_pos ⟨rfl, rfl⟩, lineRest_cons, lineKind]
  simp only [hdoc]
  rfl

theorem measure_block (t : Text) : measure 0x2f (0x2a :: t) = some (.comment, blockRest t + 1) := by
  rw [measure, if_neg (by simp), if_pos ⟨rfl, rfl⟩, Nat.add_comm]
  rfl

/-- The kind of a literal between quotes. -/
def quotedKind (quote : UInt8) : TokenKind := if quote = 0x22 then .string else .char

theorem measure_quoted {quote : UInt8} (h : quote = 0x22 ∨ quote = 0x27) (t : Text) :
    measure quote t = (quotedRest quote t).map (quotedKind quote, ·) := by
  rcases h with rfl | rfl
  · rfl
  · rfl

theorem measure_raw (t : Text) : measure 0x60 t = some (.string, rawRest t) := rfl

theorem ends_line (t : Text) : ends 0x2f (0x2f :: t) = lineEnds t := by
  rw [ends, if_pos ⟨rfl, rfl⟩]
  rfl

theorem ends_block (t : Text) : ends 0x2f (0x2a :: t) = blockEnds t := by
  rw [ends, if_neg (by simp), if_pos ⟨rfl, rfl⟩]
  rfl

theorem ends_quoted {quote : UInt8} (h : quote = 0x22 ∨ quote = 0x27) (t : Text) :
    ends quote t = quotedEnds quote t := by
  rcases h with rfl | rfl
  · rfl
  · rfl

theorem ends_raw (t : Text) : ends 0x60 t = rawEnds t := rfl

theorem ends_of_plain {b : UInt8} {t : Text} (h : Plain b t) : ends b t := by
  obtain ⟨hq, hc⟩ := h
  simp only [quotes, List.mem_cons, List.not_mem_nil, or_false, not_or] at hq
  have h1 : ¬ (b = 0x2f ∧ t.head? = some 0x2f) := fun h => hc ⟨h.1, .inl h.2⟩
  have h2 : ¬ (b = 0x2f ∧ t.head? = some 0x2a) := fun h => hc ⟨h.1, .inr h.2⟩
  rw [ends, if_neg h1, if_neg h2, if_neg (not_or.2 ⟨hq.1, hq.2.1⟩), if_neg hq.2.2]

/-- A lexeme that ends within a text does not depend on what stands apart after it. -/
theorem measure_append_of_ends {b : UInt8} {t : Text} (h : ends b t) {v : Text} (hv : Apart v) :
    measure b (t ++ v) = measure b t ∧ ∀ r ∈ measure b t, r.2 ≤ t.length := by
  cases opening b t with
  | line t =>
    obtain ⟨heq, hle⟩ := lineRest_append (ends_line t ▸ h) v
    rw [List.cons_append, measure_line, measure_line, heq, lineKind_append t hv]
    simpa using hle
  | block t =>
    obtain ⟨heq, hle⟩ := blockRest_append (ends_block t ▸ h) v
    rw [List.cons_append, measure_block, measure_block, heq]
    simpa using hle
  | quoted _ _ hq =>
    obtain ⟨heq, hle⟩ := quotedRest_append (ends_quoted hq t ▸ h) v
    rw [measure_quoted hq, measure_quoted hq, heq]
    refine ⟨rfl, fun r hr => ?_⟩
    obtain ⟨n, hn, rfl⟩ := Option.map_eq_some_iff.1 hr
    exact hle n hn
  | raw _ =>
    obtain ⟨heq, hle⟩ := rawRest_append (ends_raw t ▸ h) v
    rw [measure_raw, measure_raw, heq]
    simpa using hle
  | plain _ _ hp => exact ⟨measure_append hp hv, fun r hr => plain_le hp hr⟩

/-- An unfinished lexeme takes all that is left. -/
theorem measure_of_not_ends {b : UInt8} {t : Text} (h : ends b t = false) {kind : TokenKind} {n : Nat}
    (hm : measure b t = some (kind, n)) : n = t.length := by
  cases opening b t with
  | line t =>
    rw [ends_line] at h
    rw [measure_line, lineRest_of_not_ends h] at hm
    exact (Prod.mk.inj (Option.some.inj hm)).2.symm
  | block t =>
    rw [ends_block] at h
    rw [measure_block, blockRest_of_not_ends h] at hm
    exact (Prod.mk.inj (Option.some.inj hm)).2.symm
  | quoted _ _ hq =>
    rw [ends_quoted hq] at h
    rw [measure_quoted hq] at hm
    obtain ⟨m, hm, heq⟩ := Option.map_eq_some_iff.1 hm
    exact (Prod.mk.inj heq).2 ▸ quotedRest_of_not_ends h hm
  | raw _ =>
    rw [ends_raw] at h
    rw [measure_raw, rawRest_of_not_ends h] at hm
    exact (Prod.mk.inj (Option.some.inj hm)).2.symm
  | plain _ _ hp => exact absurd (ends_of_plain hp) (by simp [h])

theorem measure_le {b : UInt8} {t : Text} {kind : TokenKind} {n : Nat} (hm : measure b t = some (kind, n)) :
    n ≤ t.length := by
  cases hends : ends b t with
  | true => exact (measure_append_of_ends hends (v := []) (by simp [Apart])).2 _ hm
  | false => exact (measure_of_not_ends hends hm).le

theorem measure_append_kind {b : UInt8} {t : Text} (h : ends b t = false) {v : Text} (hv : Apart v)
    {kind kind' : TokenKind} {n n' : Nat} (hm : measure b t = some (kind, n))
    (hm' : measure b (t ++ v) = some (kind', n')) : kind' = kind := by
  cases opening b t with
  | line t =>
    rw [measure_line] at hm
    rw [List.cons_append, measure_line, lineKind_append t hv] at hm'
    exact (Prod.mk.inj (Option.some.inj hm')).1.symm.trans (Prod.mk.inj (Option.some.inj hm)).1
  | block t => exact (Prod.mk.inj (Option.some.inj hm')).1.symm.trans (Prod.mk.inj (Option.some.inj hm)).1
  | quoted _ _ hq =>
    rw [measure_quoted hq] at hm hm'
    obtain ⟨_, -, heq⟩ := Option.map_eq_some_iff.1 hm
    obtain ⟨_, -, heq'⟩ := Option.map_eq_some_iff.1 hm'
    exact (Prod.mk.inj heq').1.symm.trans (Prod.mk.inj heq).1
  | raw _ => exact (Prod.mk.inj (Option.some.inj hm')).1.symm.trans (Prod.mk.inj (Option.some.inj hm)).1
  | plain _ _ hp => exact absurd (ends_of_plain hp) (by simp [h])

/-! ### Inert text -/

/-- The bytes that can end an unfinished lexeme or start a literal or a comment. -/
def marks : List UInt8 := [0x00, 0x0a, 0x22, 0x27, 0x2f, 0x5c, 0x60]

/-- Inert text has no mark. -/
def Inert (v : Text) : Prop := ∀ b ∈ v, b ∉ marks

variable {v : Text}

theorem Inert.not_any (hv : Inert v) {p : UInt8 → Bool} (hp : ∀ b, p b → b ∈ marks) : v.any p = false :=
  List.any_eq_false.2 fun b hb h => hv b hb (hp b h)

theorem Inert.blockEnds (hv : Inert v) : blockEnds v = false := by
  induction v with
  | nil => rfl
  | cons b v ih =>
    have hhead : v.head? ≠ some 0x2f := fun h => hv 0x2f (List.mem_cons_of_mem b (List.mem_of_head? h)) (by decide)
    have hz : b ≠ 0 := fun h => hv b (List.mem_cons_self) (by rw [h]; decide)
    rw [blockEnds_cons, if_neg fun h => hhead h.2, ih fun c hc => hv c (List.mem_cons_of_mem b hc)]
    simpa using hz

theorem blockEnds_append_inert {t : Text} (h : blockEnds t = false) (hv : Inert v) : blockEnds (t ++ v) = false := by
  induction t with
  | nil => exact hv.blockEnds
  | cons b t ih =>
    rw [blockEnds_cons] at h
    split at h
    · cases h
    · rename_i hclose
      obtain ⟨hz, ht⟩ : b ≠ 0 ∧ Lexeme.blockEnds t = false := by simpa using h
      have hopen : ¬ (b = 0x2a ∧ (t ++ v).head? = some 0x2f) := by
        rintro ⟨hb, hhead⟩
        cases t with
        | nil => exact hv 0x2f (List.mem_of_head? hhead) (by decide)
        | cons c t => exact hclose ⟨hb, hhead⟩
      rw [List.cons_append, blockEnds_cons, if_neg hopen, ih ht]
      simpa using hz

theorem Inert.quotedEnds (hv : Inert v) {quote : UInt8} (hq : quote ∈ marks) : quotedEnds quote v = false := by
  induction v with
  | nil => rfl
  | cons b v ih =>
    have hb : ∀ c ∈ marks, b ≠ c := fun c hc h => hv b List.mem_cons_self (h ▸ hc)
    rw [quotedEnds_cons (hb 0x5c (by decide)), ih fun c hc => hv c (List.mem_cons_of_mem b hc)]
    simp [hb quote hq, hb 0 (by decide), hb 0x0a (by decide)]

theorem quotedEnds_append_inert {quote : UInt8} (hq : quote ∈ marks) {t : Text} (h : quotedEnds quote t = false)
    (hv : Inert v) : quotedEnds quote (t ++ v) = false := by
  induction t using quoted_induction with
  | nil => exact hv.quotedEnds hq
  | cut =>
    cases v with
    | nil => rfl
    | cons c v => exact Inert.quotedEnds (fun d hd => hv d (List.mem_cons_of_mem c hd)) hq
  | escape c t ih => exact ih h
  | plain b t hb ih =>
    rw [quotedEnds_cons hb] at h
    obtain ⟨hend, ht⟩ := Bool.or_eq_false_iff.1 h
    rw [List.cons_append, quotedEnds_cons hb, hend, ih ht]
    rfl

/-- Inert text does not finish a lexeme. -/
theorem ends_append_inert {b : UInt8} {t : Text} (h : ends b t = false) (hv : Inert v) : ends b (t ++ v) = false := by
  cases opening b t with
  | line t =>
    rw [ends_line, lineEnds] at h
    rw [List.cons_append, ends_line, lineEnds, List.any_append, h, hv.not_any (by simp [marks])]
    rfl
  | block t =>
    rw [ends_block] at h
    rw [List.cons_append, ends_block]
    exact blockEnds_append_inert h hv
  | quoted _ _ hq =>
    rw [ends_quoted hq] at h ⊢
    exact quotedEnds_append_inert (by rcases hq with rfl | rfl <;> decide) h hv
  | raw _ =>
    rw [ends_raw, rawEnds] at h
    rw [ends_raw, rawEnds, List.any_append, h, hv.not_any (by simp [marks])]
    rfl
  | plain _ _ hp => exact absurd (ends_of_plain hp) (by simp [h])

end MeaningForest.Lexeme

import MeaningForest.Proofs.Content
import Mathlib.Data.List.TakeWhile

/-!
# Tokens in their source

The tokens of a source lie side by side: each is a part of the source, and only white space stands before, between and
after them (`Tiling`).  The place of a token is the one that its offset has in the source, counted anew over all bytes
before it (`Text.placeOf`), and the end stands where reading stopped (`Token.exists_tiling`).

Cutting a source fails in one case: reading reaches a quote whose literal runs into a backslash that is the last byte of
the source (`Text.EndsInEscape`, `Token.scan_faults_iff`).  Up to there, and in every other source to the end, no
lexeme reaches beyond the source (`Text.Reaches.le_length`).
-/

namespace MeaningForest

open Lexeme

/-! ### Places -/

namespace Text

/-- The bytes from one offset up to another. -/
def slice (t : Text) (start stop : Nat) : Text := (t.take stop).drop start

/-- The place after a text: as many lines further as it has line feeds, as many columns as bytes stand after the last
of them. -/
def placeAfter (p : Text) : Position := ⟨1 + p.count 0x0a, 1 + (p.reverse.takeWhile (· != 0x0a)).length⟩

/-- The place of an offset. -/
def placeOf (source : Text) (offset : Nat) : Position := placeAfter (source.take offset)

@[simp] theorem slice_append (p q r : Text) : (p ++ q ++ r).slice p.length (p ++ q).length = q := by
  rw [slice, List.take_left, List.drop_left]

@[simp] theorem placeOf_append (p r : Text) : (p ++ r).placeOf p.length = p.placeAfter := by
  rw [placeOf, List.take_left]

end Text

namespace Mark

theorem advance_append (m : Mark) (p q : Text) : m.advance (p ++ q) = (m.advance p).advance q := List.foldl_append

/-- Counting byte by byte gives the place after the bytes. -/
theorem advance_start (p : Text) : start.advance p = ⟨p.length, p.placeAfter⟩ := by
  induction p using List.reverseRecOn with
  | nil => rfl
  | append_singleton p b ih =>
    have hstep : (start.advance p).advance [b] = (start.advance p).step b := rfl
    rw [advance_append, hstep, ih, step]
    by_cases hb : b = 0x0a
    · simp [Text.placeAfter, hb, Nat.add_assoc]
    · simp [Text.placeAfter, hb, Nat.add_comm]

end Mark

/-! ### Tiling -/

namespace Token

/-- The bytes of a token. -/
def bytes (source : Text) (t : Token) : Text := source.slice t.start t.stop

/-- The literal of a token are its bytes; that of a documentation comment is the trimmed text after the strokes. -/
def Reads (source : Text) (t : Token) : Prop :=
  if t.kind = .docComment then ∃ text, t.bytes source = [0x2f, 0x2f, 0x2f] ++ text ∧ t.literal = Text.trimSpace text
  else t.literal = t.bytes source

/-- A token that is a part of its source and knows its place. -/
structure Placed (source : Text) (t : Token) : Prop where
  kind_ne : t.kind ≠ .eof
  start_lt : t.start < t.stop
  stop_le : t.stop ≤ source.length
  reads : t.Reads source
  position_eq : t.position = source.placeOf t.start

/-- Only white space stands from one offset up to a later one. -/
def Blank (source : Text) (start stop : Nat) : Prop :=
  start ≤ stop ∧ ∀ b ∈ source.slice start stop, b = 0x20 ∨ b = 0x09 ∨ b = 0x0a ∨ b = 0x0d

/-- Tokens lie side by side in a source from an offset up to the place where reading stops: at the end of the source
or before a zero byte. -/
structure Tiling (source : Text) (start : Nat) (body : List Token) (stop : Nat) : Prop where
  placed : ∀ t ∈ body, t.Placed source
  ordered : body.Pairwise fun s t => s.stop ≤ t.start
  gaps : ((start, start) :: (body.map (fun t => (t.start, t.stop)) ++ [(stop, stop)])).IsChain
    fun a b => Blank source a.2 b.1
  ending : stop = source.length ∨ source[stop]? = some 0

variable {source : Text}

theorem Tiling.nil {start stop : Nat} (hgap : Blank source start stop)
    (hending : stop = source.length ∨ source[stop]? = some 0) : Tiling source start [] stop :=
  ⟨by simp, .nil, by simpa using hgap, hending⟩

theorem Tiling.cons {start stop : Nat} {t : Token} {body : List Token} (hgap : Blank source start t.start)
    (ht : t.Placed source) (h : Tiling source t.stop body stop) : Tiling source start (t :: body) stop where
  placed := List.forall_mem_cons.2 ⟨ht, h.placed⟩
  ordered := by
    refine List.pairwise_cons.2 ⟨fun u hu => ?_, h.ordered⟩
    -- the tokens of the rest start behind its own offset
    cases hbody : body with
    | nil => simp [hbody] at hu
    | cons v body' =>
      have hgaps := h.gaps
      have hordered := h.ordered
      rw [hbody] at hu hgaps hordered
      have hv : t.stop ≤ v.start := ((List.isChain_cons_cons.1 hgaps).1).1
      rcases List.mem_cons.1 hu with rfl | hu
      · exact hv
      · have hlt := (h.placed v (by simp [hbody])).start_lt
        have hvu := (List.pairwise_cons.1 hordered).1 u hu
        omega
  gaps := by
    have hgaps := h.gaps
    rw [List.map_cons, List.cons_append, List.isChain_cons_cons]
    refine ⟨hgap, ?_⟩
    -- only the second part of an extent counts for what follows it
    cases hbody : body with
    | nil =>
      rw [hbody] at hgaps
      exact List.isChain_cons_cons.2 (List.isChain_cons_cons.1 hgaps)
    | cons v body' =>
      rw [hbody] at hgaps
      exact List.isChain_cons_cons.2 (List.isChain_cons_cons.1 hgaps)
  ending := h.ending

end Token

namespace Lexeme

theorem single_not_comment (b : UInt8) : (single b).isComment = false := by
  rw [single]
  simp only [apply_ite TokenKind.isComment]
  simp only [TokenKind.isComment, ite_self]

theorem plain_not_comment {b : UInt8} {t : Text} (h : Plain b t) {kind : TokenKind} {n : Nat}
    (hm : measure b t = some (kind, n)) : kind.isComment = false := by
  rw [measure_of_plain h] at hm
  split at hm
  · obtain ⟨rfl, -⟩ := Prod.mk.inj (Option.some.inj hm)
    rw [TokenKind.ofWord]
    split
    · rfl
    · rfl
  · split at hm
    · have hkind : (numeral b t).1 = kind := congrArg Prod.fst (Option.some.inj hm)
      rw [← hkind, numeral]
      split_ifs
      · rfl
      · dsimp only
        split_ifs
        · rfl
        · rfl
    · have hkind : ((dots? b t).getD (symbolic b t)).1 = kind := congrArg Prod.fst (Option.some.inj hm)
      rw [← hkind, dots?, symbolic]
      split_ifs
      · rfl
      · rfl
      · dsimp only [Option.getD]
        split
        · rfl
        · exact single_not_comment b

theorem measure_docComment {b : UInt8} {t : Text} {n : Nat} (hm : measure b t = some (.docComment, n)) :
    ∃ text, b :: t.take n = [0x2f, 0x2f, 0x2f] ++ text := by
  cases opening b t with
  | line t =>
    rw [measure_line] at hm
    obtain ⟨hkind, rfl⟩ := Prod.mk.inj (Option.some.inj hm)
    have hhead : t.head? = some 0x2f := by
      by_contra hne
      rw [lineKind, if_neg hne] at hkind
      cases hkind
    obtain ⟨rest, rfl⟩ := List.head?_eq_some_iff.1 hhead
    rw [lineRest_cons, if_neg (by decide)]
    exact ⟨rest.take (lineRest rest), rfl⟩
  | block t => cases (Prod.mk.inj (Option.some.inj ((measure_block t).symm.trans hm))).1
  | quoted _ _ hq =>
    rw [measure_quoted hq] at hm
    obtain ⟨_, -, heq⟩ := Option.map_eq_some_iff.1 hm
    have hkind : quotedKind b = .docComment := (Prod.mk.inj heq).1
    rw [quotedKind] at hkind
    split_ifs at hkind
  | raw _ => cases (Prod.mk.inj (Option.some.inj hm)).1
  | plain _ _ hp => cases plain_not_comment hp hm

end Lexeme

namespace Token

variable {source : Text}

theorem blank_append {p gap r : Text} (hgap : ∀ b ∈ gap, isGap b) :
    Blank (p ++ gap ++ r) p.length (p ++ gap).length := by
  refine ⟨by simp, fun b hb => ?_⟩
  rw [Text.slice_append] at hb
  simpa [isGap, or_assoc] using hgap b hb

/-- The token that a lexeme gives is a part of the source. -/
theorem placed_lexeme {p rest : Text} {b : UInt8} {kind : TokenKind} {n : Nat} (hm : measure b rest = some (kind, n))
    (hsource : source = p ++ b :: rest) : Placed source
      ⟨kind, Lexeme.literal kind (b :: rest.take n), Text.placeAfter p, p.length, (p ++ b :: rest.take n).length⟩ := by
  have hcut : source = p ++ (b :: rest.take n) ++ rest.drop n := by simp [hsource]
  have hbytes : source.slice p.length (p ++ b :: rest.take n).length = b :: rest.take n := by
    rw [hcut, Text.slice_append]
  refine ⟨measure_ne_eof hm, by simp, by rw [hcut]; simp only [List.length_append]; omega, ?_, ?_⟩
  · rw [Reads]
    split_ifs with hkind
    · obtain rfl : kind = .docComment := hkind
      obtain ⟨text, htext⟩ := measure_docComment hm
      refine ⟨text, hbytes.trans htext, ?_⟩
      rw [htext]
      rfl
    · refine Eq.trans ?_ hbytes.symm
      dsimp only at hkind ⊢
      rw [Lexeme.literal.eq_def]
      split
      · exact absurd rfl hkind
      · rfl
  · rw [hsource]
    exact (Text.placeOf_append p _).symm

/-- What reading gives after `p` has been read. -/
theorem scanFrom_tiling {p t : Text} (hsource : source = p ++ t) {tokens : List Token}
    (h : scanFrom source.length (Mark.start.advance p) t = .ok tokens) : ∃ body stop,
      tokens = body ++ [⟨.eof, [], source.placeOf stop, source.length, source.length⟩] ∧
      Tiling source p.length body stop := by
  induction hlen : t.length using Nat.strong_induction_on generalizing p t tokens with
  | _ len ih =>
    have hsplit : t = t.takeWhile isGap ++ t.dropWhile isGap := List.takeWhile_append_dropWhile.symm
    have hgaps : ∀ b ∈ t.takeWhile isGap, isGap b := fun b hb => List.mem_takeWhile_imp hb
    generalize hgap : t.takeWhile isGap = gap at *
    have hmark : (Mark.start.advance p).advance gap = ⟨(p ++ gap).length, (p ++ gap).placeAfter⟩ := by
      rw [← Mark.advance_append, Mark.advance_start]
    rw [scanFrom] at h
    split at h
    · rename_i hd
      obtain rfl := Except.ok.inj h
      rw [hd, List.append_nil] at hsplit
      have hwhole : source = p ++ gap := by rw [hsource, hsplit]
      refine ⟨[], source.length, ?_, .nil ?_ (.inl rfl)⟩
      · rw [atEnd, hgap, hmark, hwhole, ← Text.placeOf_append (p ++ gap) [], List.append_nil]
        rfl
      · have hblank := blank_append (p := p) (r := []) hgaps
        rwa [List.append_nil, ← hwhole] at hblank
    · rename_i b rest hd
      rw [hd] at hsplit
      have hwhole : source = (p ++ gap) ++ b :: rest := by rw [hsource, hsplit, List.append_assoc]
      have hblank : Blank source p.length (p ++ gap).length := hwhole ▸ blank_append hgaps
      rw [hgap, hmark] at h
      dsimp only at h
      split at h
      · rename_i hb
        obtain rfl := Except.ok.inj h
        refine ⟨[], (p ++ gap).length, ?_, .nil hblank (.inr ?_)⟩
        · rw [atEnd, hwhole, Text.placeOf_append]
          rfl
        · rw [hwhole, hb, List.getElem?_append_right (Nat.le_refl _), Nat.sub_self]
          rfl
      · split at h
        · cases h
        · rename_i kind n hm
          have hafter : (Mark.mk (p ++ gap).length (p ++ gap).placeAfter).advance (b :: rest.take n) =
              Mark.start.advance (p ++ gap ++ b :: rest.take n) := by
            rw [← Mark.advance_start, ← Mark.advance_append]
          rw [hafter] at h
          cases hrest : scanFrom source.length (Mark.start.advance (p ++ gap ++ b :: rest.take n)) (rest.drop n) with
          | error e =>
            rw [hrest] at h
            cases h
          | ok ts =>
            rw [hrest] at h
            obtain rfl := Except.ok.inj h
            have hshorter : (rest.drop n).length < len := by
              rw [← hlen, hsplit, List.length_drop, List.length_append, List.length_cons]
              omega
            obtain ⟨body, stop, rfl, htiling⟩ := ih _ hshorter (by simp [hwhole]) hrest rfl
            rw [Mark.advance_start]
            exact ⟨_ :: body, stop, rfl, .cons hblank (placed_lexeme hm hwhole) htiling⟩

/-- The tokens of a source lie side by side in it, with white space around them, up to its end or a zero byte. -/
theorem exists_tiling {tokens : List Token} (h : scan source = .ok tokens) : ∃ body stop,
    tokens = body ++ [⟨.eof, [], source.placeOf stop, source.length, source.length⟩] ∧ Tiling source 0 body stop :=
  scanFrom_tiling (p := []) rfl h

/-- A literal over two lines, both kinds of comments, and a zero byte that ends the source. -/
def brokenLines : Text :=
  Text.ofString "let a = \"x\\\ny\"  /// noted \n\t`r\n` .. 1.5e3 /* so */ <<=" ++ [0x0d, 0x00, 0x61]

theorem tiling_brokenLines : ∃ body stop, scan brokenLines =
    .ok (body ++ [⟨.eof, [], Text.placeOf brokenLines stop, brokenLines.length, brokenLines.length⟩]) ∧
    Tiling brokenLines 0 body stop := by
  have hok : (scan brokenLines).isOk = true := by decide +kernel
  cases hscan : scan brokenLines with
  | error e => simp [hscan, Except.isOk, Except.toBool] at hok
  | ok tokens =>
    obtain ⟨body, stop, rfl, htiling⟩ := exists_tiling hscan
    exact ⟨body, stop, rfl, htiling⟩

end Token

/-! ### Faults -/

namespace Text

/-- Reading a text reaches `u` after `i` bytes, which are white space and whole lexemes. -/
inductive Reaches : Text → Nat → Text → Prop
  | here (t : Text) : Reaches t 0 t
  | gap {b : UInt8} {t u : Text} {i : Nat} (hgap : isGap b) (h : Reaches t i u) : Reaches (b :: t) (1 + i) u
  | lexeme {b : UInt8} {t u : Text} {kind : TokenKind} {n i : Nat} (hgap : isGap b = false) (hb : b ≠ 0)
      (hm : measure b t = some (kind, n)) (h : Reaches (t.drop n) i u) : Reaches (b :: t) (1 + n + i) u

/-- A literal, given by the text after its quote, runs into a backslash that is the last byte of the text: before it
there are only bytes that do not end the literal and backslashes with the byte after each. -/
inductive RunsIntoEscape (quote : UInt8) : Text → Prop
  | last : RunsIntoEscape quote [0x5c]
  | escape (c : UInt8) {t : Text} (h : RunsIntoEscape quote t) : RunsIntoEscape quote (0x5c :: c :: t)
  | plain {b : UInt8} {t : Text} (hb : b ∉ [0x5c, quote, 0x0a, 0x00]) (h : RunsIntoEscape quote t) :
      RunsIntoEscape quote (b :: t)

/-- Reading a source reaches a literal that runs into its last byte. -/
def EndsInEscape (source : Text) : Prop := ∃ i quote rest, Reaches source i (quote :: rest) ∧
  (quote = 0x22 ∨ quote = 0x27) ∧ RunsIntoEscape quote rest

/-- No lexeme that is passed reaches beyond the text. -/
theorem Reaches.le_length {t u : Text} {i : Nat} (h : Reaches t i u) : i ≤ t.length ∧ u = t.drop i := by
  induction h with
  | here t => exact ⟨Nat.zero_le _, rfl⟩
  | gap _ _ ih =>
    obtain ⟨hle, hu⟩ := ih
    refine ⟨by rw [List.length_cons]; omega, ?_⟩
    rw [hu, Nat.add_comm, List.drop_succ_cons]
  | @lexeme b t u kind n i _ _ hm _ ih =>
    obtain ⟨hle, hu⟩ := ih
    have hn := measure_le hm
    rw [List.length_drop] at hle
    refine ⟨by rw [List.length_cons]; omega, ?_⟩
    rw [hu, List.drop_drop, Nat.add_comm 1 n, Nat.add_right_comm, List.drop_succ_cons]

theorem runsIntoEscape_cons {quote b : UInt8} {t : Text} (hb : b ≠ 0x5c) :
    RunsIntoEscape quote (b :: t) ↔ b ∉ [quote, 0x0a, 0x00] ∧ RunsIntoEscape quote t := by
  constructor
  · intro h
    cases h with
    | last => exact absurd rfl hb
    | escape c h => exact absurd rfl hb
    | plain hb' h => exact ⟨fun hm => hb' (List.mem_cons_of_mem _ hm), h⟩
  · rintro ⟨hb', h⟩
    exact .plain (fun hm => (List.mem_cons.1 hm).elim hb hb') h

theorem quotedRest_eq_none_iff {quote : UInt8} {t : Text} : quotedRest quote t = none ↔ RunsIntoEscape quote t := by
  induction t using quoted_induction with
  | nil => exact iff_of_false (by simp [quotedRest]) (by rintro ⟨⟩)
  | cut => exact iff_of_true rfl .last
  | escape c t ih =>
    rw [quotedRest, if_pos rfl, Option.map_eq_none_iff, ih]
    refine ⟨.escape c, fun h => ?_⟩
    cases h with
    | escape _ h => exact h
    | plain hb _ => simp at hb
  | plain b t hb ih =>
    rw [quotedRest_cons hb, runsIntoEscape_cons hb, ← ih]
    by_cases hq : b = quote
    · simp [hq]
    · by_cases hstop : b = 0 ∨ b = 0x0a
      · rw [if_neg hq, if_pos hstop]
        refine iff_of_false (by simp) fun h => h.1 ?_
        rcases hstop with rfl | rfl
        · simp
        · simp
      · rw [if_neg hq, if_neg hstop, Option.map_eq_none_iff]
        obtain ⟨hz, hf⟩ := not_or.1 hstop
        simp [hq, hz, hf]

theorem measure_eq_none_iff {b : UInt8} {t : Text} :
    measure b t = none ↔ (b = 0x22 ∨ b = 0x27) ∧ RunsIntoEscape b t := by
  cases opening b t with
  | line t => simp [measure_line]
  | block t => simp [measure_block]
  | quoted _ _ hq => simp [measure_quoted hq, quotedRest_eq_none_iff, hq]
  | raw t => simp [measure_raw]
  | plain _ _ hp =>
    have hne : ¬ (b = 0x22 ∨ b = 0x27) := by
      rintro (rfl | rfl)
      · exact hp.1 (by decide)
      · exact hp.1 (by decide)
    rw [measure_of_plain hp]
    refine iff_of_false ?_ fun h => hne h.1
    split_ifs
    · simp
    · simp
    · simp

theorem not_endsInEscape_zero (t : Text) : ¬ EndsInEscape (0x00 :: t) := by
  rintro ⟨i, quote, rest, hreach, hquote, -⟩
  cases hreach with
  | here => simp at hquote
  | gap hgap _ => cases hgap
  | lexeme _ hb _ _ => exact hb rfl

theorem endsInEscape_gap {b : UInt8} {t : Text} (hgap : isGap b) : EndsInEscape (b :: t) ↔ EndsInEscape t := by
  constructor
  · rintro ⟨i, quote, rest, hreach, hquote, hruns⟩
    cases hreach with
    | here => rcases hquote with rfl | rfl <;> cases hgap
    | gap _ h => exact ⟨_, quote, rest, h, hquote, hruns⟩
    | lexeme hno _ _ _ => simp [hgap] at hno
  · rintro ⟨i, quote, rest, hreach, h⟩
    exact ⟨_, quote, rest, .gap hgap hreach, h⟩

theorem endsInEscape_lexeme {b : UInt8} {t : Text} (hgap : isGap b = false) (hb : b ≠ 0) {kind : TokenKind} {n : Nat}
    (hm : measure b t = some (kind, n)) : EndsInEscape (b :: t) ↔ EndsInEscape (t.drop n) := by
  constructor
  · rintro ⟨i, quote, rest, hreach, hquote, hruns⟩
    cases hreach with
    | here =>
      rw [measure_eq_none_iff.2 ⟨hquote, hruns⟩] at hm
      cases hm
    | gap hyes _ => simp [hgap] at hyes
    | lexeme _ _ hm' h =>
      obtain ⟨rfl, rfl⟩ := Prod.mk.inj (Option.some.inj (hm.symm.trans hm'))
      exact ⟨_, quote, rest, h, hquote, hruns⟩
  · rintro ⟨i, quote, rest, hreach, h⟩
    exact ⟨_, quote, rest, .lexeme hgap hb hm hreach, h⟩

/-- A text has no content exactly if reading it reaches a literal that runs into its last byte. -/
theorem content?_eq_none_iff (t : Text) : content? t = none ↔ EndsInEscape t := by
  induction t using scan_induction with
  | nil =>
    refine iff_of_false (by simp) ?_
    rintro ⟨i, quote, rest, hreach, -⟩
    cases hreach
  | gap b t hgap ih => rw [content?_gap hgap, endsInEscape_gap hgap, ih]
  | zero t => exact iff_of_false (by simp [content?_zero]) (not_endsInEscape_zero t)
  | cut b t hgap hb hm =>
    obtain ⟨hquote, hruns⟩ := measure_eq_none_iff.1 hm
    exact iff_of_true (by rw [content?_cons hgap hb, hm]; rfl) ⟨0, b, t, .here _, hquote, hruns⟩
  | lexeme b t kind n hgap hb hm ih =>
    rw [content?_cons hgap hb, hm, endsInEscape_lexeme hgap hb hm, ← ih]
    exact Option.map_eq_none_iff

end Text

namespace Token

theorem scanFrom_eq_error {total : Nat} {m : Mark} {t : Text} {e : Fault} (h : scanFrom total m t = .error e) :
    e = .cutBeyondEnd (total + 1) total := by
  fun_induction scanFrom total m t generalizing e with
  | case1 => cases h
  | case2 => cases h
  | case3 => exact (Except.error.inj h).symm
  | case4 m t b rest hgap m' hb kind n hm bytes after =>
    rename_i ih
    cases hrest : scanFrom total after (rest.drop n) with
    | error e' =>
      rw [hrest] at h
      obtain rfl := Except.error.inj h
      exact ih hrest
    | ok ts =>
      rw [hrest] at h
      cases h

/-- A source cannot be cut exactly if reading it reaches a literal that runs into a last backslash, where the literal
would end one byte beyond the source.  Every other lexeme that is reached ends within the source. -/
theorem scan_faults_iff (source : Text) :
    (scan source = .error (.cutBeyondEnd (source.length + 1) source.length) ↔ Text.EndsInEscape source) ∧
      (¬ Text.EndsInEscape source → ∃ tokens, scan source = .ok tokens) ∧
      ∀ i u, Text.Reaches source i u → i ≤ source.length ∧ u = source.drop i ∧
        ∀ b t kind n, u = b :: t → measure b t = some (kind, n) → i + 1 + n ≤ source.length := by
  have hcontent := Text.content?_eq_none_iff source
  rw [Text.content?, Option.map_eq_none_iff] at hcontent
  refine ⟨?_, ?_, ?_⟩
  · rw [← hcontent]
    cases hscan : scan source with
    | ok tokens => simp [Except.toOption]
    | error e => simp [scanFrom_eq_error hscan, Except.toOption]
  · intro hends
    cases hscan : scan source with
    | ok tokens => exact ⟨tokens, rfl⟩
    | error e => exact absurd (hcontent.1 (by rw [hscan]; rfl)) hends
  · intro i u hreach
    obtain ⟨hle, hu⟩ := hreach.le_length
    refine ⟨hle, hu, ?_⟩
    rintro b t kind n rfl hm
    have hn := measure_le hm
    have hlength := congrArg List.length hu
    rw [List.length_cons, List.length_drop] at hlength
    omega

/-- The byte after a backslash belongs to the literal, also if it is a zero byte. -/
example : scan [0x27, 0x5c, 0x00, 0x5c] = .error (.cutBeyondEnd 5 4) := by decide +kernel

end Token

end MeaningForest

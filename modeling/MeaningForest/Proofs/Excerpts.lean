import MeaningForest.Diagnostic
import MeaningForest.Proofs.Paths
import MeaningForest.Proofs.Respacing

/-!
# Excerpts

An excerpt shows one line of a source, without its leading blanks and the carriage returns at its end, behind the number
of the line, and a caret below it (`excerpt?_eq`).  What the line of a source is can be told without cutting the source
(`Text.IsLine`).

The place of a token is counted while the source is read; the excerpt cuts the source at its line feeds and moves the
caret by what it leaves out.  The two agree: a token starts with a byte that the excerpt keeps, and the caret of the
excerpt at its place stands below that byte (`Token.exists_excerpt`).
-/

namespace MeaningForest

/-! ### Lines -/

namespace Text

variable {source line : Text} {n : Nat}

/-- A text is the line with the given number, counted from one: it has no line feed, it starts with the source or behind
a line feed, and it ends with the source or before one. -/
def IsLine (source : Text) (n : Nat) (line : Text) : Prop :=
  ∃ before after, source = before ++ line ++ after ∧ n = before.count 0x0a + 1 ∧ 0x0a ∉ line ∧
    (before = [] ∨ before.getLast? = some 0x0a) ∧ (after = [] ∨ after.head? = some 0x0a)

theorem length_split (sep : UInt8) (t : Text) : (split sep t).length = t.count sep + 1 := by
  induction t with
  | nil => rfl
  | cons b t ih =>
    rw [split, List.count_cons]
    by_cases hb : b = sep
    · simp [hb, ih]
    · cases hs : split sep t with
      | nil => exact absurd hs (split_ne_nil sep t)
      | cons piece pieces =>
        rw [hs, List.length_cons] at ih
        simpa [hb] using ih

theorem IsLine.getElem?_lines (h : IsLine source n line) : (lines source)[n - 1]? = some line := by
  obtain ⟨before, after, rfl, rfl, hline, hbefore, hafter⟩ := h
  obtain ⟨more, hmore⟩ : ∃ more, split 0x0a (line ++ after) = line :: more := by
    rcases hafter with rfl | hafter
    · exact ⟨[], by rw [List.append_nil, split_of_notMem hline]⟩
    · obtain ⟨rest, rfl⟩ := List.head?_eq_some_iff.1 hafter
      exact ⟨split 0x0a rest, by rw [split_append_sep, split_of_notMem hline, List.singleton_append]⟩
  rcases hbefore with rfl | hbefore
  · rw [lines, List.nil_append, hmore]
    rfl
  · obtain ⟨front, rfl⟩ := List.getLast?_eq_some_iff.1 hbefore
    have hlength : (split 0x0a front).length = (front ++ [0x0a]).count 0x0a := by
      rw [length_split, List.count_append]
      rfl
    rw [lines, List.append_assoc, List.append_assoc, List.singleton_append, split_append_sep, hmore,
      Nat.add_sub_cancel, ← hlength, List.getElem?_append_right (Nat.le_refl _), Nat.sub_self]
    rfl

/-- A text ends in bytes that are dropped at its end; the byte before them is not dropped. -/
theorem exists_trailing (drop : UInt8 → Bool) (t : Text) : ∃ trailing, t = trimEndWhile drop t ++ trailing ∧
    (∀ c ∈ trailing, drop c) ∧ ∀ c ∈ (trimEndWhile drop t).getLast?, drop c = false := by
  refine ⟨(t.reverse.takeWhile drop).reverse, ?_, fun c hc => ?_, fun c hc => ?_⟩
  · rw [trimEndWhile, ← List.reverse_append, List.takeWhile_append_dropWhile, List.reverse_reverse]
  · exact List.mem_takeWhile_imp (List.mem_reverse.1 hc)
  · have hhead := List.head?_dropWhile_not drop t.reverse
    rw [trimEndWhile, List.getLast?_reverse, Option.mem_def] at hc
    rw [hc] at hhead
    simpa using hhead

theorem trimEndWhile_append_cons (drop : UInt8 → Bool) {b : UInt8} (hb : drop b = false) (u v : Text) :
    trimEndWhile drop (u ++ b :: v) = u ++ b :: trimEndWhile drop v := by
  have hstop : (b :: u.reverse).dropWhile drop = b :: u.reverse := List.dropWhile_cons_of_neg (by simp [hb])
  rw [trimEndWhile, trimEndWhile, List.reverse_append, List.reverse_cons, List.append_assoc, List.singleton_append,
    List.dropWhile_append, hstop]
  split
  · rename_i hnil
    simp [List.isEmpty_iff.1 hnil]
  · simp

/-- The place behind a text, told from its last line. -/
theorem placeAfter_append {before front : Text} (hfront : 0x0a ∉ front)
    (hbefore : before = [] ∨ before.getLast? = some 0x0a) :
    placeAfter (before ++ front) = ⟨before.count 0x0a + 1, front.length + 1⟩ := by
  have hrun : ∀ c ∈ front.reverse, (c != 0x0a) = true := fun c hc => by
    rw [bne_iff_ne]
    rintro rfl
    exact hfront (List.mem_reverse.1 hc)
  have hstop : before.reverse.takeWhile (· != 0x0a) = [] := by
    rcases hbefore with rfl | hbefore
    · rfl
    · obtain ⟨start, rfl⟩ := List.getLast?_eq_some_iff.1 hbefore
      rw [List.reverse_append]
      rfl
  rw [placeAfter, List.count_append, List.count_eq_zero.2 hfront, List.reverse_append,
    List.takeWhile_append_of_pos hrun, hstop, List.append_nil, List.length_reverse, Nat.add_comm, Nat.add_comm 1]

/-- The line around a byte, told from the place of the byte. -/
theorem exists_isLine (p : Text) {b : UInt8} (rest : Text) (hb : b ≠ 0x0a) : ∃ front tail,
    IsLine (p ++ b :: rest) p.placeAfter.line (front ++ b :: tail) ∧ p.placeAfter.column = front.length + 1 := by
  obtain ⟨front, hp, hfront, hlast⟩ := exists_trailing (· != 0x0a) p
  generalize trimEndWhile (· != 0x0a) p = before at hp hlast
  have hfront : 0x0a ∉ front := fun h => by simpa using hfront _ h
  have hbefore : before = [] ∨ before.getLast? = some 0x0a := by
    cases hend : before.getLast? with
    | none => exact .inl (List.getLast?_eq_none_iff.1 hend)
    | some c => exact .inr (by simpa using hlast c hend)
  have hplace := hp ▸ placeAfter_append hfront hbefore
  have htail : 0x0a ∉ rest.takeWhile (· != 0x0a) := fun h => by simpa using List.mem_takeWhile_imp h
  refine ⟨front, rest.takeWhile (· != 0x0a), ⟨before, rest.dropWhile (· != 0x0a), ?_, by rw [hplace], ?_, hbefore, ?_⟩,
    by rw [hplace]⟩
  · rw [hp, List.append_assoc, List.append_assoc, List.append_assoc, List.cons_append, List.takeWhile_append_dropWhile]
  · simp [hfront, htail, Ne.symm hb]
  · cases hdrop : rest.dropWhile (· != 0x0a) with
    | nil => exact .inl rfl
    | cons c t =>
      have hc := List.head?_dropWhile_not (· != 0x0a) rest
      rw [hdrop] at hc
      exact .inr (by simpa using hc)

end Text

/-! ### What an excerpt shows -/

/-- A blank at the start of a line, which an excerpt leaves out. -/
def isIndent (b : UInt8) : Bool := b == 0x20 || b == 0x09

/-- The part of a line that an excerpt shows. -/
def Text.shown (line : Text) : Text := (Text.trimEndWhile (· == 0x0d) line).dropWhile isIndent

/-- The number of blanks that an excerpt leaves out. -/
def Text.indent (line : Text) : Nat := (Text.trimEndWhile (· == 0x0d) line).length - line.shown.length

/-- The excerpt for a place on a line of the source. -/
theorem excerpt?_eq {source line : Text} {n : Nat} (hline : source.IsLine n line) (column : Nat) :
    excerpt? source n column = some (Text.ofNat n ++ Text.ofString " |  " ++ line.shown,
      List.replicate ((Text.ofNat n).length + 1) 0x20 ++ Text.ofString "|  " ++
        List.replicate (column - 1 - line.indent) 0x20 ++ [0x5e]) := by
  have hpos : 1 ≤ n := by
    obtain ⟨_, _, _, rfl, _⟩ := hline
    exact Nat.le_add_left 1 _
  have hindex : ((n : Int) - 1).toNat = n - 1 := by omega
  have hcaret : ((column : Int) - 1 - line.indent).toNat = column - 1 - line.indent := by omega
  have hpad : Text.ofNat n ++ List.replicate ((Text.ofNat n).length + 1 - (Text.ofNat n).length) 0x20 =
      Text.ofNat n ++ [0x20] := by
    rw [Nat.add_sub_cancel_left]
    rfl
  have hnumber : Text.ofNat n ++ [0x20] ++ Text.ofString "|  " = Text.ofNat n ++ Text.ofString " |  " :=
    List.append_assoc ..
  rw [excerpt?, if_neg (by omega), hindex, hline.getElem?_lines, ← hcaret, ← hnumber, ← hpad]
  rfl

/-- A part of a line that is left when all blanks at its start and all carriage returns at its end are taken away. -/
def Text.Trims (line kept : Text) : Prop :=
  ∃ blanks returns, line = blanks ++ kept ++ returns ∧ (∀ c ∈ blanks, c = 0x20 ∨ c = 0x09) ∧ (∀ c ∈ returns, c = 0x0d) ∧
    (∀ c ∈ kept.head?, c ≠ 0x20 ∧ c ≠ 0x09) ∧ ∀ c ∈ kept.getLast?, c ≠ 0x0d

theorem Text.trims_shown (line : Text) : line.Trims line.shown := by
  obtain ⟨returns, hline, hreturns, hlast⟩ := exists_trailing (· == 0x0d) line
  have hsplit := List.takeWhile_append_dropWhile (p := isIndent) (l := trimEndWhile (· == 0x0d) line)
  refine ⟨(trimEndWhile (· == 0x0d) line).takeWhile isIndent, returns, ?_, fun c hc => ?_, fun c hc => ?_,
    fun c hc => ?_, fun c hc => ?_⟩
  · rw [shown, hsplit]
    exact hline
  · simpa [isIndent] using List.mem_takeWhile_imp hc
  · simpa using hreturns c hc
  · have hhead := List.head?_dropWhile_not isIndent (trimEndWhile (· == 0x0d) line)
    rw [shown, Option.mem_def] at hc
    rw [hc] at hhead
    simpa [isIndent] using hhead
  · -- the last byte of a part that is left is the last byte of the whole
    have hend : c ∈ (trimEndWhile (· == 0x0d) line).getLast? := by
      rw [Option.mem_def, shown] at hc
      rw [Option.mem_def, ← hsplit, List.getLast?_append, hc]
      rfl
    simpa using hlast c hend

section

variable {front tail : Text} {b : UInt8} (hb : Lexeme.isGap b = false)

include hb

theorem Text.shown_around : (front ++ b :: tail).shown =
    front.dropWhile isIndent ++ b :: trimEndWhile (· == 0x0d) tail := by
  simp only [Lexeme.isGap, Bool.or_eq_false_iff] at hb
  have hkept : isIndent b = false := by simp [isIndent, hb.1.1.1, hb.1.1.2]
  have hstop : (b :: trimEndWhile (· == 0x0d) tail).dropWhile isIndent = b :: trimEndWhile (· == 0x0d) tail :=
    List.dropWhile_cons_of_neg (by simp [hkept])
  rw [shown, trimEndWhile_append_cons (· == 0x0d) hb.2, List.dropWhile_append, hstop]
  split
  · rename_i hnil
    rw [List.isEmpty_iff.1 hnil, List.nil_append]
  · rfl

/-- The bytes before a byte that is no white space are blanks that are left out and bytes that are shown. -/
theorem Text.length_sub_indent : front.length - (front ++ b :: tail).indent = (front.dropWhile isIndent).length := by
  have hsplit := congrArg List.length (List.takeWhile_append_dropWhile (p := isIndent) (l := front))
  have hreturn : (b == 0x0d) = false := (Bool.or_eq_false_iff.1 hb).2
  rw [List.length_append] at hsplit
  rw [indent, shown_around hb, trimEndWhile_append_cons (· == 0x0d) hreturn, List.length_append, List.length_append]
  omega

end

/-- The two lines of an excerpt.  The first one shows the line of the source with the given number behind this number;
the second one ends in its only caret, which stands below the byte that the source has at the offset. -/
structure PointsAt (source : Text) (n offset : Nat) (text caret : Text) : Prop where
  shows : ∃ line kept, source.IsLine n line ∧ line.Trims kept ∧ text = Text.ofNat n ++ Text.ofString " |  " ++ kept
  points : ∃ under b, caret = under ++ [0x5e] ∧ 0x5e ∉ under ∧ text[under.length]? = some b ∧ source[offset]? = some b

/-- The excerpt for the place of a byte that is no white space points at this byte. -/
theorem exists_excerpt_placeAfter (p : Text) {b : UInt8} (rest : Text) (hb : Lexeme.isGap b = false) :
    ∃ text caret, excerpt? (p ++ b :: rest) p.placeAfter.line p.placeAfter.column = some (text, caret) ∧
      PointsAt (p ++ b :: rest) p.placeAfter.line p.length text caret := by
  have hfeed : b ≠ 0x0a := by
    rintro rfl
    cases hb
  obtain ⟨front, tail, hline, hcolumn⟩ := Text.exists_isLine p rest hfeed
  refine ⟨_, _, excerpt?_eq hline _, ⟨_, _, hline, Text.trims_shown _, rfl⟩, _, b, rfl, ?_, ?_, ?_⟩
  · simp only [List.mem_append, List.mem_replicate, not_or]
    exact ⟨⟨by simp, by decide⟩, by simp⟩
  · have hskip : ∀ k, (List.replicate ((Text.ofNat p.placeAfter.line).length + 1) 0x20 ++ Text.ofString "|  " ++
        List.replicate k (0x20 : UInt8)).length =
          (Text.ofNat p.placeAfter.line ++ Text.ofString " |  ").length + k := by
      intro k
      simp only [List.length_append, List.length_replicate]
      show _ + 3 + _ = _ + 4 + _
      omega
    rw [hskip, hcolumn, Nat.add_sub_cancel, Text.length_sub_indent hb, Text.shown_around hb, ← List.append_assoc,
      ← List.length_append, List.getElem?_append_right (Nat.le_refl _), Nat.sub_self]
    rfl
  · rw [List.getElem?_append_right (Nat.le_refl _), Nat.sub_self]
    rfl

/-! ### Excerpts for tokens -/

namespace Token

open Lexeme

variable {source : Text}

/-- A token starts with a byte that is no white space, and it has the place of this byte. -/
def Opens (source : Text) (t : Token) : Prop :=
  ∃ (p : Text) (b : UInt8) (rest : Text), source = p ++ b :: rest ∧ isGap b = false ∧ t.start = p.length ∧
    t.position = p.placeAfter

theorem scanFrom_opens {p t : Text} (hsource : source = p ++ t) {tokens : List Token}
    (h : scanFrom source.length (Mark.start.advance p) t = .ok tokens) : ∀ s ∈ tokens, s.kind ≠ .eof →
      s.Opens source := by
  induction t using Text.scan_induction generalizing p tokens with
  | nil =>
    rw [scanFrom_nil] at h
    obtain rfl := Except.ok.inj h
    simp [atEnd]
  | gap b t hgap ih =>
    have hmark : (Mark.start.advance p).step b = Mark.start.advance (p ++ [b]) := (Mark.advance_append _ p [b]).symm
    rw [scanFrom_gap _ _ hgap, hmark] at h
    exact ih (by simp [hsource]) h
  | zero t =>
    rw [scanFrom_zero] at h
    obtain rfl := Except.ok.inj h
    simp [atEnd]
  | cut b t hgap hb hm =>
    rw [scanFrom_cut _ _ hgap hb hm] at h
    cases h
  | lexeme b t kind n hgap hb hm ih =>
    rw [scanFrom_lexeme _ _ hgap hb hm, ← Mark.advance_append] at h
    cases hrest : scanFrom source.length (Mark.start.advance (p ++ b :: t.take n)) (t.drop n) with
    | error e =>
      rw [hrest] at h
      cases h
    | ok ts =>
      rw [hrest] at h
      obtain rfl := Except.ok.inj h
      refine List.forall_mem_cons.2 ⟨fun _ => ⟨p, b, t, hsource, hgap, ?_, ?_⟩, ih (by simp [hsource]) hrest⟩
      · rw [Mark.advance_start]
      · rw [Mark.advance_start]

/-- The excerpt at the place of a token shows the line on which the token starts and points at its first byte. -/
theorem exists_excerpt {tokens : List Token} (h : scan source = .ok tokens) {t : Token} (ht : t ∈ tokens)
    (hkind : t.kind ≠ .eof) : ∃ text caret, excerpt? source t.position.line t.position.column = some (text, caret) ∧
      PointsAt source t.position.line t.start text caret := by
  obtain ⟨p, b, rest, rfl, hb, hstart, hplace⟩ := scanFrom_opens (p := []) rfl h t ht hkind
  rw [hstart, hplace]
  exact exists_excerpt_placeAfter p rest hb

/-- A raw literal and a comment over several lines, tabs, and carriage returns before, between and after tokens. -/
def indented : Text := Text.ofString "`a\n\tb` \r\n\t \r x /* \n\t */ y\r\r\n"

theorem exists_excerpt_indented : ∃ tokens, scan indented = .ok tokens ∧
    ⟨.ident, "y", ⟨4, 6⟩, 24, 25⟩ ∈ tokens ∧ TokenKind.ident ≠ .eof ∧
    ∃ text caret, excerpt? indented 4 6 = some (text, caret) ∧ PointsAt indented 4 24 text caret := by
  have hmem : (scan indented).toOption.any (·.contains ⟨.ident, "y", ⟨4, 6⟩, 24, 25⟩) = true := by decide +kernel
  cases hscan : scan indented with
  | error e => simp [hscan, Except.toOption] at hmem
  | ok tokens =>
    have hy : ⟨.ident, "y", ⟨4, 6⟩, 24, 25⟩ ∈ tokens := by simpa [hscan, Except.toOption] using hmem
    exact ⟨tokens, rfl, hy, by decide, exists_excerpt hscan hy (by decide)⟩

example : excerpt? indented 4 6 = some (Text.ofString "4 |  */ y", Text.ofString "  |     ^") := by decide +kernel

end Token

end MeaningForest

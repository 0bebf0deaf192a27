import MeaningForest.Proofs.Acceptance
import MeaningForest.Proofs.Lexemes

/-!
# The content of a text

The content of a text are its tokens without comments and places.  It is found lexeme by lexeme;
`Text.scan_induction` is the induction that goes with it, and `Text.Every` says that a condition holds of each lexeme.

A text is complete if each of its lexemes ends within it.  The content of a complete text and one that stands apart
from it is the one content after the other (`Text.Complete.content?_append`).  A text that is not complete swallows
the content of any inert text after it (`Text.content?_append_ne`).
-/

namespace MeaningForest

/-- The kinds and literals of the tokens of a list that are neither comments nor the end of a source. -/
def Token.content (ts : List Token) : List (TokenKind × Text) :=
  (ts.filter fun t => !t.kind.isComment && t.kind != .eof).map fun t => (t.kind, t.literal)

/-- The content of a text; there is none if the text cannot be cut into tokens. -/
def Text.content? (t : Text) : Option (List (TokenKind × Text)) := (Token.scan t).toOption.map Token.content

namespace Lexeme

/-- Puts a lexeme before the content of the text after it, unless it is a comment. -/
def push (kind : TokenKind) (bytes : Text) (ts : List (TokenKind × Text)) : List (TokenKind × Text) :=
  if kind.isComment then ts else (kind, bytes) :: ts

end Lexeme

open Lexeme

theorem Token.content_cons (t : Token) (ts : List Token) (h : t.kind ≠ .eof) :
    content (t :: ts) = push t.kind t.literal (content ts) := by
  unfold content push
  by_cases hc : t.kind.isComment
  · simp [hc]
  · simp [hc, h]

theorem push_literal (kind : TokenKind) (bytes : Text) (ts : List (TokenKind × Text)) :
    push kind (literal kind bytes) ts = push kind bytes ts := by
  unfold push literal
  cases kind <;> rfl

theorem Token.scanFrom_content (total : Nat) (m : Mark) (t : Text) :
    (scanFrom total m t).toOption.map content =
      match t.dropWhile isGap with
      | [] => some []
      | b :: rest =>
        if b = 0 then some []
        else match measure b rest with
          | none => none
          | some (kind, n) =>
            ((scanFrom total ((m.advance (t.takeWhile isGap)).advance (b :: rest.take n)) (rest.drop n)).toOption.map
              content).map (push kind (b :: rest.take n)) := by
  rw [scanFrom]
  split
  · rename_i h
    rw [h]
    rfl
  · rename_i b rest h
    rw [h]
    dsimp only
    split
    · rfl
    · rcases hm : measure b rest with _ | ⟨kind, n⟩
      · rfl
      · dsimp only
        cases hs : scanFrom total ((m.advance (t.takeWhile isGap)).advance (b :: rest.take n)) (rest.drop n) with
        | error e => rfl
        | ok ts =>
          show some (content (_ :: ts)) = some _
          rw [content_cons _ _ (measure_ne_eof hm)]
          rw [push_literal]

theorem push_comment {kind : TokenKind} (h : kind.isComment) (bytes : Text) : push kind bytes = id := by
  funext ts
  rw [push, if_pos h]
  rfl

theorem push_append (kind : TokenKind) (bytes : Text) (ts vs : List (TokenKind × Text)) :
    push kind bytes (ts ++ vs) = push kind bytes ts ++ vs := by
  unfold push
  split <;> rfl

theorem push_injective {kind : TokenKind} {bytes : Text} {ts vs : List (TokenKind × Text)}
    (h : push kind bytes ts = push kind bytes vs) : ts = vs := by
  unfold push at h
  split at h
  · exact h
  · exact (List.cons.inj h).2

/-- Places do not matter to the content. -/
theorem Token.scanFrom_content_congr (total total' : Nat) (m m' : Mark) (t : Text) :
    (scanFrom total m t).toOption.map content = (scanFrom total' m' t).toOption.map content := by
  induction hlen : t.length using Nat.strong_induction_on generalizing m m' t with
  | _ len ih =>
    rw [scanFrom_content, scanFrom_content]
    cases hd : t.dropWhile isGap with
    | nil => rfl
    | cons b rest =>
      have hle := (List.dropWhile_sublist (p := isGap) (l := t)).length_le
      rw [hd, List.length_cons] at hle
      dsimp only
      split
      · rfl
      · cases measure b rest with
        | none => rfl
        | some r =>
          have hlt : (rest.drop r.2).length < len := by
            rw [List.length_drop]
            omega
          dsimp only
          rw [ih _ hlt _ ((m'.advance (t.takeWhile isGap)).advance (b :: rest.take r.2)) _ rfl]

namespace Text

theorem content?_of_dropWhile {t : Text} {b : UInt8} {rest : Text} (hd : t.dropWhile isGap = b :: rest) (hb : b ≠ 0) :
    content? t = (measure b rest).bind fun r =>
      (content? (rest.drop r.2)).map (push r.1 (b :: rest.take r.2)) := by
  unfold content? Token.scan
  rw [Token.scanFrom_content, hd]
  dsimp only
  rw [if_neg hb]
  cases measure b rest with
  | none => rfl
  | some r =>
    dsimp only [Option.bind]
    rw [Token.scanFrom_content_congr _ (rest.drop r.2).length _ Mark.start]

@[simp] theorem content?_nil : content? [] = some [] := by
  unfold content? Token.scan
  rw [Token.scanFrom_content]
  rfl

/-- What stands between tokens does not count. -/
theorem content?_gap {b : UInt8} (h : isGap b) (t : Text) : content? (b :: t) = content? t := by
  unfold content? Token.scan
  rw [Token.scanFrom_content, Token.scanFrom_content, List.dropWhile_cons_of_pos h]
  cases hd : t.dropWhile isGap with
  | nil => rfl
  | cons c rest =>
    dsimp only
    split
    · rfl
    · cases measure c rest with
      | none => rfl
      | some r =>
        exact congrArg (Option.map _) (Token.scanFrom_content_congr _ _ _ _ _)

/-- A zero byte ends the source. -/
theorem content?_zero (t : Text) : content? (0 :: t) = some [] := by
  unfold content? Token.scan
  rw [Token.scanFrom_content]
  rfl

theorem content?_cons {b : UInt8} (hgap : isGap b = false) (hb : b ≠ 0) (t : Text) :
    content? (b :: t) = (measure b t).bind fun r => (content? (t.drop r.2)).map (push r.1 (b :: t.take r.2)) :=
  content?_of_dropWhile (List.dropWhile_cons_of_neg (by simp [hgap])) hb

theorem content?_line (t : Text) : content? (0x2f :: 0x2f :: t) = content? (t.drop (lineRest t)) := by
  rw [content?_cons rfl (by decide), measure_line]
  simp [push_comment (lineKind_isComment t)]

theorem content?_block (t : Text) : content? (0x2f :: 0x2a :: t) = content? (t.drop (blockRest t)) := by
  rw [content?_cons rfl (by decide), measure_block]
  simp [push_comment (rfl : TokenKind.comment.isComment)]

/-- Induction along the lexemes of a text. -/
theorem scan_induction {P : Text → Prop} (nil : P []) (gap : ∀ b t, isGap b → P t → P (b :: t))
    (zero : ∀ t, P (0 :: t)) (cut : ∀ b t, isGap b = false → b ≠ 0 → measure b t = none → P (b :: t))
    (lexeme : ∀ b t kind n, isGap b = false → b ≠ 0 → measure b t = some (kind, n) → P (t.drop n) → P (b :: t))
    (t : Text) : P t := by
  induction hlen : t.length using Nat.strong_induction_on generalizing t with
  | _ len ih =>
    cases t with
    | nil => exact nil
    | cons b t =>
      rw [List.length_cons] at hlen
      by_cases hgap : isGap b
      · exact gap b t hgap (ih t.length (by omega) t rfl)
      · by_cases hb : b = 0
        · exact hb ▸ zero t
        · have hgap : isGap b = false := by simpa using hgap
          cases hm : measure b t with
          | none => exact cut b t hgap hb hm
          | some r =>
            refine lexeme b t r.1 r.2 hgap hb hm (ih (t.drop r.2).length ?_ _ rfl)
            rw [List.length_drop]
            omega

/-! ### A condition on every lexeme -/

/-- Every lexeme of a text satisfies `P`, which is given the first byte, the text after it and the number of bytes that
belong to the lexeme there.  A zero byte counts as a lexeme that ends the text. -/
inductive Every (P : UInt8 → Text → Nat → Prop) : Text → Prop
  | nil : Every P []
  | gap {b : UInt8} {t : Text} (hgap : isGap b) (rest : Every P t) : Every P (b :: t)
  | zero {t : Text} (h : P 0 t 0) : Every P (0 :: t)
  | lexeme {b : UInt8} {t : Text} {kind : TokenKind} {n : Nat} (hgap : isGap b = false) (hb : b ≠ 0)
      (hm : measure b t = some (kind, n)) (h : P b t n) (rest : Every P (t.drop n)) : Every P (b :: t)

section Every

variable {P : UInt8 → Text → Nat → Prop} {b : UInt8} {t : Text}

theorem every_gap (hgap : isGap b) : Every P (b :: t) ↔ Every P t := by
  constructor
  · intro h
    cases h with
    | gap _ rest => exact rest
    | zero _ => cases hgap
    | lexeme hno _ _ _ _ => simp [hgap] at hno
  · exact .gap hgap

theorem every_zero : Every P (0 :: t) ↔ P 0 t 0 := by
  constructor
  · intro h
    cases h with
    | gap hgap _ => cases hgap
    | zero h => exact h
    | lexeme _ hb _ _ _ => exact absurd rfl hb
  · exact .zero

theorem not_every_cut (hgap : isGap b = false) (hb : b ≠ 0) (hm : measure b t = none) : ¬ Every P (b :: t) := by
  intro h
  cases h with
  | gap h _ => simp [hgap] at h
  | zero _ => exact hb rfl
  | lexeme _ _ h _ _ => simp [hm] at h

theorem every_lexeme (hgap : isGap b = false) (hb : b ≠ 0) {kind : TokenKind} {n : Nat}
    (hm : measure b t = some (kind, n)) : Every P (b :: t) ↔ P b t n ∧ Every P (t.drop n) := by
  constructor
  · intro h
    cases h with
    | gap h _ => simp [hgap] at h
    | zero _ => exact absurd rfl hb
    | lexeme _ _ hm' h rest =>
      obtain ⟨-, rfl⟩ := Prod.mk.inj (Option.some.inj (hm.symm.trans hm'))
      exact ⟨h, rest⟩
  · rintro ⟨h, rest⟩
    exact .lexeme hgap hb hm h rest

end Every

/-! ### Complete texts -/

/-- Every lexeme of a text ends within it, and no zero byte ends the text before. -/
def Complete (t : Text) : Prop := Every (fun b rest _ => b ≠ 0 ∧ ends b rest) t

variable {t v : Text}

theorem Complete.content?_append (h : Complete t) (hv : Apart v) :
    ∃ ts, content? t = some ts ∧ content? (t ++ v) = (content? v).map (ts ++ ·) := by
  induction h with
  | nil => exact ⟨[], content?_nil, by simp⟩
  | gap hgap _ ih =>
    obtain ⟨ts, ht, htv⟩ := ih
    exact ⟨ts, (content?_gap hgap _).trans ht, (content?_gap hgap _).trans htv⟩
  | zero h => exact absurd rfl h.1
  | @lexeme b t kind n hgap hb hm h _ ih =>
    obtain ⟨ts, ht, htv⟩ := ih
    obtain ⟨hsame, hle⟩ := measure_append_of_ends h.2 hv
    have hn : n ≤ t.length := hle _ hm
    refine ⟨push kind (b :: t.take n) ts, ?_, ?_⟩
    · rw [content?_cons hgap hb, hm]
      simp [ht]
    · rw [List.cons_append, content?_cons hgap hb, hsame, hm]
      simp only [Option.bind_some, List.drop_append_of_le_length hn, List.take_append_of_le_length hn, htv,
        Option.map_map, Function.comp_def, push_append]

/-- A text that is not complete swallows what comes after it. -/
theorem content?_append_ne (h : ¬ Complete t) (hv : Apart v) (hinert : Inert v) {ts vs : List (TokenKind × Text)}
    (ht : content? t = some ts) (hvs : vs ≠ []) : content? (t ++ v) ≠ some (ts ++ vs) := by
  induction t using scan_induction generalizing ts with
  | nil => exact absurd .nil h
  | gap b t hgap ih =>
    rw [List.cons_append, content?_gap hgap]
    rw [content?_gap hgap] at ht
    exact ih (fun hc => h (.gap hgap hc)) ht
  | zero t =>
    rw [content?_zero] at ht
    obtain rfl := Option.some.inj ht
    rw [List.cons_append, content?_zero]
    exact fun heq => hvs (Option.some.inj heq).symm
  | cut b t hgap hb hm =>
    rw [content?_cons hgap hb, hm] at ht
    cases ht
  | lexeme b t kind n hgap hb hm ih =>
    rw [content?_cons hgap hb, hm] at ht
    obtain ⟨ts', ht', rfl⟩ := Option.map_eq_some_iff.1 ht
    rw [List.cons_append, content?_cons hgap hb]
    cases hends : ends b t with
    | true =>
      obtain ⟨hsame, hle⟩ := measure_append_of_ends hends hv
      have hn : n ≤ t.length := hle _ hm
      have hrest : ¬ Complete (t.drop n) := fun hc => h (.lexeme hgap hb hm ⟨hb, hends⟩ hc)
      rw [hsame, hm]
      simp only [Option.bind_some, List.drop_append_of_le_length hn, List.take_append_of_le_length hn, ← push_append]
      intro heq
      obtain ⟨x, hx, hpush⟩ := Option.map_eq_some_iff.1 heq
      exact ih hrest ht' (hx.trans (congrArg some (push_injective hpush)))
    | false =>
      intro heq
      obtain ⟨⟨kind', n'⟩, hm', hrest⟩ := Option.bind_eq_some_iff.1 heq
      obtain rfl := measure_of_not_ends (ends_append_inert hends hinert) hm'
      obtain rfl := measure_of_not_ends hends hm
      obtain rfl := measure_append_kind hends hv hm hm'
      simp only [List.drop_length, List.take_length, content?_nil, Option.map_some, Option.some.injEq] at ht' hrest
      subst ht'
      unfold push at hrest
      split at hrest
      · exact hvs hrest.symm
      · simp [hvs] at hrest

end Text

end MeaningForest

import MeaningForest.Proofs.Reading

/-!
# Where reading fails

A step of reading that fails notes one problem: at the token where it comes to rest, or at the one after it, and then it
does not rest at a closing brace.  `Reading.Reports` says this of one step; a step that requires a token reports the one
after the current one, so what stands before it has to be known.
-/

namespace MeaningForest

/-- Where the search for the end of a fragment comes to rest: at an item, or at the end of the source. -/
def FragmentEnd.Rests (stops : List TokenKind) (items : List Item) : FragmentEnd → Prop
  | .found stop rest => stop.kind ∈ stops ∧ ∃ i is, rest = i :: is ∧ i.token = stop ∧ rest <:+ items
  | .unbalanced stop rest => ∃ i is, rest = i :: is ∧ i.token = stop ∧ rest <:+ items
  | .exhausted => True

theorem FragmentEnd.Rests.cons {stops : List TokenKind} {items : List Item} {e : FragmentEnd} (h : e.Rests stops items)
    (j : Item) : e.Rests stops (j :: items) := by
  cases e with
  | found stop rest =>
    obtain ⟨hstop, i, is, hrest, hi, hsuffix⟩ := h
    exact ⟨hstop, i, is, hrest, hi, hsuffix.trans (List.suffix_cons j items)⟩
  | unbalanced stop rest =>
    obtain ⟨i, is, hrest, hi, hsuffix⟩ := h
    exact ⟨i, is, hrest, hi, hsuffix.trans (List.suffix_cons j items)⟩
  | exhausted => trivial

variable [lang : Language]

namespace Reader

/-- Reading came from `r` to rest at `r'` and noted one problem, at the current token or, unless this is a closing
brace, at the one after it. -/
structure Refused (r r' : Reader) : Prop where
  later : Later r r'
  noted : ∃ t p, r'.problems = r.problems ++ [.found t.position p] ∧
    (t = r'.current ∨ t = r'.upcoming ∧ r'.current.kind ≠ .rbrace)

variable {r r' r'' : Reader}

theorem Refused.of_same (hlater : Later r r') (hsame : r'.problems = r.problems) (h : Refused r' r'') :
    Refused r r'' :=
  ⟨hlater.trans h.later, hsame ▸ h.noted⟩

end Reader

namespace Reading

open Reader

variable {α β : Type} {r : Reader}

/-- A step succeeds with `Q` and notes nothing, or it comes to rest where it notes one problem. -/
def Reports (x : Reading α) (r : Reader) (Q : α → Reader → Prop) : Prop :=
  match x.run r with
  | (some a, r') => Later r r' ∧ r'.problems = r.problems ∧ Q a r'
  | (none, r') => Refused r r'

namespace Reports

theorem of_some {x : Reading α} {Q : α → Reader → Prop} (h : Reports x r Q) {a : α} {r' : Reader}
    (hrun : x.run r = (some a, r')) : Later r r' ∧ r'.problems = r.problems ∧ Q a r' := by
  rwa [Reports, hrun] at h

theorem of_none {x : Reading α} {Q : α → Reader → Prop} (h : Reports x r Q) {r' : Reader}
    (hrun : x.run r = (none, r')) : Refused r r' := by
  rwa [Reports, hrun] at h

theorem bind {x : Reading α} {f : α → Reading β} {Q : α → Reader → Prop} {Q' : β → Reader → Prop}
    (hx : Reports x r Q) (hf : ∀ a r', Q a r' → Reports (f a) r' Q') : Reports (x >>= f) r Q' := by
  have hrun : (x >>= f).run r = (x.run r).1.elim (Pure.pure none) (fun a => (f a).run) (x.run r).2 := by
    rw [OptionT.run_bind]
    rfl
  rw [Reports, hrun]
  rcases hxr : x.run r with ⟨_ | a, r'⟩
  · exact hx.of_none hxr
  · obtain ⟨hlater, hsame, hQ⟩ := hx.of_some hxr
    have hfr := hf a r' hQ
    rcases hrun' : (f a).run r' with ⟨_ | b, r''⟩
    · simpa only [Option.elim, hrun'] using (hfr.of_none hrun').of_same hlater hsame
    · obtain ⟨hlater', hsame', hQ'⟩ := hfr.of_some hrun'
      simpa only [Option.elim, hrun'] using And.intro (hlater.trans hlater') ⟨hsame'.trans hsame, hQ'⟩

theorem pure {a : α} {Q : α → Reader → Prop} (h : Q a r) : Reports (pure a) r Q := ⟨.refl r, rfl, h⟩

theorem get : Reports get r fun a r' => a = r ∧ r' = r := ⟨.refl r, rfl, rfl, rfl⟩

theorem next : Reports next r fun _ r' => r' = r.advance := ⟨later_advance r, rfl, rfl⟩

theorem at? (k : TokenKind) : Reports (at? k) r fun b r' => b = decide (r.current.kind = k) ∧ r' = r :=
  ⟨.refl r, rfl, rfl, rfl⟩

theorem before? (k : TokenKind) : Reports (before? k) r fun b r' => b = decide (r.upcoming.kind = k) ∧ r' = r :=
  ⟨.refl r, rfl, rfl, rfl⟩

theorem refuse {t : Token} {p : ReadProblem} {Q : α → Reader → Prop}
    (h : t = r.current ∨ t = r.upcoming ∧ r.current.kind ≠ .rbrace) : Reports (refuse t p) r Q :=
  ⟨⟨rfl, rfl, List.suffix_rfl⟩, t, p, rfl, h⟩

theorem require {k : TokenKind} (hk : r.current.kind ≠ .rbrace) :
    Reports (require k) r fun _ r' => r'.current.kind = k := by
  refine get.bind ?_
  rintro a r' ⟨rfl, rfl⟩
  split
  · rename_i hup
    exact ⟨later_advance r', rfl, hup⟩
  · exact refuse (.inr ⟨rfl, hk⟩)

/-- A step that is taken or not, before both branches go on alike. -/
theorem whether {c : Prop} [Decidable c] {x : Reading Unit} {f : Unit → Reading α} {Q : Reader → Prop}
    {Q' : α → Reader → Prop} (hx : c → Reports x r fun _ r' => Q r') (hskip : ¬ c → Q r)
    (hf : ∀ r', Q r' → Reports (f ()) r' Q') : Reports (if c then x >>= f else f ()) r Q' := by
  split
  · rename_i hc
    exact (hx hc).bind fun _ => hf
  · rename_i hc
    exact hf r (hskip hc)

theorem rests_findFragmentEnd (stops : List TokenKind) (depth : Nat) (items : List Item) :
    (findFragmentEnd stops depth items).Rests stops items := by
  fun_induction findFragmentEnd stops depth items with
  | case1 => trivial
  | case2 i rest hstop => exact ⟨hstop, i, rest, rfl, rfl, List.suffix_rfl⟩
  | case3 i rest _ _ ih => exact ih.cons i
  | case4 i rest => exact ⟨i, rest, rfl, rfl, List.suffix_rfl⟩
  | case5 i rest _ _ _ ih => exact ih.cons i
  | case6 depth i rest _ ih => exact ih.cons i
  | case7 depth i rest _ _ ih => exact ih.cons i
  | case8 depth i rest _ _ ih => exact ih.cons i

theorem fragment (stops : List TokenKind) (wanted : TokenKind) :
    Reports (fragment stops wanted) r fun a r' => a.2 = r'.current ∧ r'.current.kind ∈ stops := by
  have hrests := rests_findFragmentEnd stops 0 r.items
  refine get.bind ?_
  rintro a r' ⟨rfl, rfl⟩
  split
  · rename_i stop rest heq
    rw [heq] at hrests
    obtain ⟨hstop, i, is, rfl, rfl, hsuffix⟩ := hrests
    exact ⟨⟨rfl, rfl, hsuffix⟩, rfl, rfl, hstop⟩
  · rename_i stop rest heq
    rw [heq] at hrests
    obtain ⟨i, is, rfl, rfl, hsuffix⟩ := hrests
    exact ⟨⟨rfl, rfl, hsuffix⟩, i.token, _, rfl, .inl rfl⟩
  · exact ⟨⟨rfl, rfl, List.nil_suffix⟩, _, _, rfl, .inl rfl⟩

theorem fragmentTo (k : TokenKind) : Reports (fragmentTo k) r fun _ r' => r'.current.kind = k := by
  refine (fragment [k] k).bind ?_
  rintro a r' ⟨-, hk⟩
  exact pure (by simpa using hk)

theorem group (opening closing : TokenKind) :
    Reports (group opening closing) r fun _ r' => r'.current.kind = closing := by
  refine get.bind ?_
  rintro a r' ⟨rfl, rfl⟩
  split
  · exact next.bind fun _ _ _ => fragmentTo closing
  · exact refuse (.inl rfl)

theorem typeParams : Reports typeParams r fun _ _ => True := by
  refine (at? _).bind ?_
  rintro b r' -
  split
  · exact (group _ _).bind fun _ _ _ => next.bind fun _ _ _ => pure trivial
  · exact pure trivial

theorem field (hk : r.current.kind ≠ .rbrace) : Reports field r fun _ _ => True := by
  refine (before? _).bind ?_
  rintro isRef r' ⟨rfl, rfl⟩
  refine whether (Q := fun r' => r'.current.kind ≠ .rbrace) (fun href => ?_) (fun _ => hk) fun r₁ hr₁ => ?_
  · have hup : r'.advance.current.kind = .keyword .ref := by simpa [← upcoming_eq] using href
    exact ⟨later_advance r', rfl, by simp [hup]⟩
  refine (require hr₁).bind fun _ r₂ hr₂ => ?_
  refine get.bind ?_
  rintro name r₃ ⟨rfl, rfl⟩
  refine (require (by simp [hr₂])).bind fun _ r₄ _ => ?_
  refine next.bind fun _ r₅ _ => ?_
  refine (fragment _ _).bind ?_
  rintro ⟨type, stop⟩ r₆ ⟨rfl, -⟩
  dsimp only
  split
  · exact (refuse (Q := fun _ _ => False) (.inl rfl)).bind fun _ _ => False.elim
  · split
    · refine next.bind fun _ r₇ _ => ?_
      refine (fragment _ _).bind ?_
      rintro ⟨default, stop⟩ r₈ ⟨rfl, -⟩
      dsimp only
      split
      · exact (refuse (Q := fun _ _ => False) (.inl rfl)).bind fun _ _ => False.elim
      · exact next.bind fun _ _ _ => pure trivial
    · exact next.bind fun _ _ _ => pure trivial

theorem skipSemicolon : Reports skipSemicolon r fun _ _ => True := by
  refine (at? _).bind fun b r' _ => ?_
  split
  · exact next.bind fun _ _ _ => pure trivial
  · exact pure trivial

theorem superCall : Reports superCall r fun _ _ => True := by
  refine (at? _).bind fun b r' _ => ?_
  split
  · refine next.bind fun _ _ _ => ?_
    refine (group _ _).bind fun _ _ _ => ?_
    exact next.bind fun _ _ _ => skipSemicolon.bind fun _ _ _ => pure trivial
  · exact pure trivial

theorem constructor : Reports constructor r fun _ _ => True := by
  refine get.bind fun _ _ _ => ?_
  refine next.bind fun _ _ _ => ?_
  refine typeParams.bind fun _ _ _ => ?_
  refine (group _ _).bind fun _ r₁ hclose => ?_
  refine (require (by simp [hclose])).bind fun _ _ _ => ?_
  refine next.bind fun _ _ _ => ?_
  refine superCall.bind fun _ _ _ => ?_
  refine (fragmentTo _).bind fun _ _ _ => ?_
  exact next.bind fun _ _ _ => pure trivial

theorem methodHead (hk : r.current.kind ≠ .rbrace) :
    Reports methodHead r fun _ r' => r'.current.kind ≠ .rbrace := by
  refine get.bind ?_
  rintro a r₁ ⟨rfl, rfl⟩
  refine (at? _).bind ?_
  rintro b r₂ ⟨rfl, rfl⟩
  split
  · refine (require hk).bind fun _ r₃ hfn => ?_
    refine get.bind ?_
    rintro a r₄ ⟨rfl, rfl⟩
    exact pure (by simp [hfn])
  · exact pure hk

theorem method (hk : r.current.kind ≠ .rbrace) : Reports method r fun _ _ => True := by
  refine (methodHead hk).bind fun head r₁ hr₁ => ?_
  refine (require hr₁).bind fun _ _ _ => ?_
  refine get.bind fun _ _ _ => ?_
  refine next.bind fun _ _ _ => ?_
  refine typeParams.bind fun _ _ _ => ?_
  refine (group _ _).bind fun _ _ _ => ?_
  refine next.bind fun _ _ _ => ?_
  refine (fragmentTo _).bind fun _ _ _ => ?_
  refine next.bind fun _ _ _ => ?_
  refine (fragmentTo _).bind fun _ _ _ => ?_
  exact next.bind fun _ _ _ => pure trivial

theorem member (d : MeaningDecl) (hk : r.current.kind ≠ .rbrace) : Reports (member d) r fun _ _ => True := by
  refine get.bind ?_
  rintro a r' ⟨rfl, rfl⟩
  split
  · exact (field hk).bind fun _ _ _ => pure trivial
  · exact constructor.bind fun _ _ _ => pure trivial
  · exact (method hk).bind fun _ _ _ => pure trivial
  · exact (method hk).bind fun _ _ _ => pure trivial
  · exact next.bind fun _ _ _ => pure trivial
  · exact refuse (.inl rfl)

theorem meaningHead (hk : r.current.kind ≠ .rbrace) : Reports meaningHead r fun _ _ => True := by
  refine get.bind ?_
  rintro a r₁ ⟨rfl, rfl⟩
  refine (require hk).bind fun _ r₂ hname => ?_
  refine get.bind ?_
  rintro a r₃ ⟨rfl, rfl⟩
  have hopen : ∀ {d : MeaningDecl} {r : Reader}, r.current.kind = .ident →
      Reports (Reading.require .lbrace >>= fun _ => Reading.next >>= fun _ => Pure.pure d) r fun _ _ => True :=
    fun hk => (require (by simp [hk])).bind fun _ _ _ => next.bind fun _ _ _ => pure trivial
  refine (before? _).bind ?_
  rintro b r₄ ⟨rfl, rfl⟩
  split
  · rename_i hcolon
    have hup : r₄.advance.current.kind = .colon := by simpa [← upcoming_eq] using hcolon
    refine next.bind ?_
    rintro _ r₅ rfl
    refine (require (by simp [hup])).bind fun _ r₆ hparent => ?_
    refine get.bind ?_
    rintro a r₇ ⟨rfl, rfl⟩
    exact hopen hparent
  · exact hopen hname

theorem named (hk : r.current.kind ≠ .rbrace) : Reports named r fun _ _ => True :=
  (require hk).bind fun _ _ _ => get.bind fun _ _ _ => pure trivial

end Reports

/-- An import is read or refused at the current token, or at the one after its name. -/
theorem importSpec_run (r : Reader) : importSpec.run r =
    let named := r.current.kind = .ident ∨ r.current.kind = .dot
    let r₁ := if named then r.advance else r
    let t := r₁.current
    if t.kind = .string then
      (some ⟨r.current.position, if named then r.current.literal else [],
        t.literal.unquote?.getD (t.literal.trimWhile fun b => b == 0x22 || b == 0x60)⟩, r₁.advance)
    else (none, r₁.note t (.expected .string t)) := by
  show (if (decide (r.current.kind = .ident) || decide (r.current.kind = .dot)) = true then _ else _ :
    Reading ImportDecl).run r = _
  by_cases hname : r.current.kind = .ident ∨ r.current.kind = .dot
  · have hname' : (decide (r.current.kind = .ident) || decide (r.current.kind = .dot)) = true := by simpa using hname
    rw [if_pos hname']
    simp only [if_pos hname]
    show (if r.advance.current.kind = .string then _ else _ : Reading ImportDecl).run r.advance = _
    split <;> rfl
  · have hname' : ¬ (decide (r.current.kind = .ident) || decide (r.current.kind = .dot)) = true := by simpa using hname
    rw [if_neg hname']
    simp only [if_neg hname]
    show (if r.current.kind = .string then _ else _ : Reading ImportDecl).run r = _
    split <;> rfl

end Reading

end MeaningForest

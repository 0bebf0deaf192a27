import MeaningForest.Declaration.Reader
import MeaningForest.Proofs.Grammar

/-!
# Reading decides the grammar

Each step of reading decides a language: if it succeeds, then its input belongs to the language followed by any other
exactly if what is left belongs to the other; if it fails, a problem is noted and the input does not belong to the
language followed by anything.  `Decides` says this of one step for a fixed proposition `P`, the acceptance of the
whole input, so that steps are put together by rewriting `P` (`Decides.bind`).

A fragment of host code is found by counting brackets; `endsRight_findFragmentEnd` says what the search answers.
-/

namespace MeaningForest

variable {lang : Language}

namespace Reader

/-- The tokens from the current one up to the end. -/
def tokens (r : Reader) : List Token := r.items.map (·.token) ++ [r.ending]

/-- The tokens after the current one. -/
def following (r : Reader) : List Token := r.tokens.tail

/-- Only the ending is an end. -/
structure Sound (r : Reader) : Prop where
  ending : r.ending.kind = .eof
  items : ∀ i ∈ r.items, i.kind ≠ .eof

/-- `r'` is reached from `r` by passing items. -/
structure Later (r r' : Reader) : Prop where
  source : r'.source = r.source
  ending : r'.ending = r.ending
  items : r'.items <:+ r.items

variable {r r' r'' : Reader}

theorem Later.refl (r : Reader) : Later r r := ⟨rfl, rfl, List.suffix_rfl⟩

theorem Later.trans (h : Later r r') (h' : Later r' r'') : Later r r'' :=
  ⟨h'.source.trans h.source, h'.ending.trans h.ending, h'.items.trans h.items⟩

theorem Later.sound (h : Later r r') (hr : r.Sound) : r'.Sound :=
  ⟨h.ending ▸ hr.ending, fun i hi => hr.items i (h.items.subset hi)⟩

theorem later_advance (r : Reader) : Later r r.advance := ⟨rfl, rfl, List.drop_suffix 1 r.items⟩

theorem tokens_eq (r : Reader) : r.tokens = r.current :: r.following := by
  rw [following, tokens, current]
  cases r.items <;> rfl

theorem exists_item (hr : r.Sound) (h : r.current.kind ≠ .eof) : ∃ i rest, r.items = i :: rest := by
  cases hi : r.items with
  | nil => exact absurd hr.ending (by simpa [current, hi] using h)
  | cons i rest => exact ⟨i, rest, rfl⟩

theorem tokens_advance (hr : r.Sound) (h : r.current.kind ≠ .eof) : r.advance.tokens = r.following := by
  obtain ⟨i, rest, hi⟩ := exists_item hr h
  simp [following, tokens, advance, hi]

theorem length_advance (hr : r.Sound) (h : r.current.kind ≠ .eof) : r.advance.items.length < r.items.length := by
  obtain ⟨i, rest, hi⟩ := exists_item hr h
  simp [advance, hi]

/-- What is reached after passing the current item has fewer items. -/
theorem Later.length_lt (h : Later r.advance r') (hr : r.Sound) (hk : r.current.kind ≠ .eof) :
    r'.items.length < r.items.length :=
  lt_of_le_of_lt h.items.length_le (length_advance hr hk)

theorem upcoming_eq (r : Reader) : r.upcoming = r.advance.current := rfl

/-- What follows begins with the upcoming token, unless it is empty. -/
theorem upcoming_kind {k : TokenKind} {K : FormalLanguage Token} (h : r.following ∈ Grammar.one k * K) :
    r.upcoming.kind = k := by
  rw [following, tokens] at h
  rw [upcoming]
  cases hi : r.items with
  | nil => exact absurd (by simpa [hi] using h) Grammar.nil_notMem_one_mul
  | cons i rest =>
    cases rest with
    | nil => simpa [hi] using (Grammar.cons_mem_one_mul.1 (by simpa [hi] using h)).1
    | cons j rest => simpa [hi] using (Grammar.cons_mem_one_mul.1 (by simpa [hi] using h)).1

/-- After passing an item that is not the last one, the current token is the one that followed. -/
theorem following_eq (hr : r.Sound) (h : r.upcoming.kind ≠ .eof) :
    r.following = r.upcoming :: r.advance.following := by
  have hcurrent : r.current.kind ≠ .eof := by
    intro he
    cases hi : r.items with
    | nil => exact h (by simpa [upcoming, hi] using hr.ending)
    | cons i rest => exact hr.items i (by simp [hi]) (by simpa [current, hi, Item.kind] using he)
  rw [← tokens_advance hr hcurrent, upcoming_eq]
  exact tokens_eq _

end Reader

namespace Reading

open Reader Grammar

variable {α β : Type} {r : Reader} {P : Prop}

/-- A step succeeds with `Q` and notes nothing, or it fails, notes a problem and refutes `P`. -/
def Decides (x : Reading α) (r : Reader) (P : Prop) (Q : α → Reader → Prop) : Prop :=
  match x.run r with
  | (some a, r') => Later r r' ∧ r'.problems = r.problems ∧ Q a r'
  | (none, r') => Later r r' ∧ r.problems.length < r'.problems.length ∧ ¬ P

theorem decides_iff {x : Reading α} {Q : α → Reader → Prop} : Decides x r P Q ↔
    (∃ a r', x.run r = (some a, r') ∧ Later r r' ∧ r'.problems = r.problems ∧ Q a r') ∨
      ∃ r', x.run r = (none, r') ∧ Later r r' ∧ r.problems.length < r'.problems.length ∧ ¬ P := by
  have hcases : ∀ p : Option α × Reader, (match p with
      | (some a, r') => Later r r' ∧ r'.problems = r.problems ∧ Q a r'
      | (none, r') => Later r r' ∧ r.problems.length < r'.problems.length ∧ ¬ P) ↔
      (∃ a r', p = (some a, r') ∧ Later r r' ∧ r'.problems = r.problems ∧ Q a r') ∨
        ∃ r', p = (none, r') ∧ Later r r' ∧ r.problems.length < r'.problems.length ∧ ¬ P := by
    rintro ⟨_ | a, r'⟩ <;> simp
  exact hcases (x.run r)

namespace Decides

theorem of_some {x : Reading α} {Q : α → Reader → Prop} (h : Decides x r P Q) {a : α} {r' : Reader}
    (hrun : x.run r = (some a, r')) : Later r r' ∧ r'.problems = r.problems ∧ Q a r' := by
  rwa [Decides, hrun] at h

theorem of_none {x : Reading α} {Q : α → Reader → Prop} (h : Decides x r P Q) {r' : Reader}
    (hrun : x.run r = (none, r')) : Later r r' ∧ r.problems.length < r'.problems.length ∧ ¬ P := by
  rwa [Decides, hrun] at h

theorem bind {x : Reading α} {f : α → Reading β} {Q : α → Reader → Prop} {Q' : β → Reader → Prop}
    (hx : Decides x r P Q)
    (hf : ∀ a r', Later r r' → r'.problems = r.problems → Q a r' → Decides (f a) r' P Q') :
    Decides (x >>= f) r P Q' := by
  have hrun : (x >>= f).run r = (x.run r).1.elim (Pure.pure none) (fun a => (f a).run) (x.run r).2 := by
    rw [OptionT.run_bind]
    rfl
  rw [decides_iff, hrun]
  rcases decides_iff.1 hx with ⟨a, r', hxr, hlater, hsame, hq⟩ | ⟨r', hxr, hfail⟩
  · rw [hxr]
    rcases decides_iff.1 (hf a r' hlater hsame hq) with ⟨b, r'', hfr, hlater', hsame', hq'⟩ | ⟨r'', hfr, hlater', hfail⟩
    · exact .inl ⟨b, r'', hfr, hlater.trans hlater', hsame'.trans hsame, hq'⟩
    · exact .inr ⟨r'', hfr, hlater.trans hlater', hsame ▸ hfail⟩
  · rw [hxr]
    exact .inr ⟨r', rfl, hfail⟩

theorem pure {a : α} {Q : α → Reader → Prop} (h : Q a r) : Decides (pure a) r P Q := ⟨.refl r, rfl, h⟩

theorem mono {x : Reading α} {Q Q' : α → Reader → Prop} (h : Decides x r P Q)
    (hQ : ∀ a r', Later r r' → Q a r' → Q' a r') : Decides x r P Q' := by
  rw [decides_iff] at h ⊢
  rcases h with ⟨a, r', hrun, hlater, hsame, hq⟩ | hfail
  · exact .inl ⟨a, r', hrun, hlater, hsame, hQ a r' hlater hq⟩
  · exact .inr hfail

/-- A step that is taken or not, before both branches go on alike. -/
theorem whether {c : Prop} [Decidable c] {x : Reading Unit} {f : Unit → Reading α} {Q : α → Reader → Prop}
    (h : Decides ((if c then x else Pure.pure ()) >>= f) r P Q) : Decides (if c then x >>= f else f ()) r P Q := by
  by_cases hc : c
  · simpa [hc] using h
  · simpa [hc] using h

theorem get : Decides get r P fun a r' => a = r ∧ r' = r := ⟨.refl r, rfl, rfl, rfl⟩

theorem next : Decides next r P fun _ r' => r' = r.advance := ⟨later_advance r, rfl, rfl⟩

theorem at? (k : TokenKind) : Decides (at? k) r P fun b r' => b = decide (r.current.kind = k) ∧ r' = r :=
  ⟨.refl r, rfl, rfl, rfl⟩

theorem before? (k : TokenKind) : Decides (before? k) r P fun b r' => b = decide (r.upcoming.kind = k) ∧ r' = r :=
  ⟨.refl r, rfl, rfl, rfl⟩

theorem set {items : List Item} (h : items <:+ r.items) :
    Decides (MonadStateOf.set { r with items := items }) r P fun _ r' => r' = { r with items := items } :=
  ⟨⟨rfl, rfl, h⟩, rfl, rfl⟩

theorem refuse {t : Token} {p : ReadProblem} {Q : α → Reader → Prop} (h : ¬ P) :
    Decides (refuse t p) r P Q := by
  refine ⟨⟨rfl, rfl, List.suffix_rfl⟩, ?_, h⟩
  simp [Reader.note]

theorem refuse_bind {t : Token} {p : ReadProblem} {f : α → Reading β} {Q : β → Reader → Prop} (h : ¬ P) :
    Decides (Reading.refuse t p >>= f) r P Q :=
  (refuse (Q := fun _ _ => False) h).bind fun _ _ _ _ hf => hf.elim

theorem require {k : TokenKind} {K : FormalLanguage Token} (hr : r.Sound) (hk : k ≠ .eof)
    (hP : P ↔ r.following ∈ one k * K) :
    Decides (require k) r P fun _ r' => r' = r.advance ∧ r'.current.kind = k ∧ (P ↔ r'.following ∈ K) := by
  rw [Reading.require]
  refine get.bind ?_
  rintro a r' - - ⟨rfl, rfl⟩
  by_cases hup : r'.upcoming.kind = k
  · have hfollow : r'.following = r'.upcoming :: r'.advance.following := following_eq hr (hup ▸ hk)
    rw [hfollow, cons_mem_one_mul] at hP
    rw [if_pos hup]
    refine next.mono ?_
    rintro - r₁ - rfl
    exact ⟨rfl, hup, hP.trans (and_iff_right hup)⟩
  · rw [if_neg hup]
    exact refuse fun hp => hup (upcoming_kind (hP.1 hp))

/-- A word that may stand before what does not begin with it. -/
theorem optionalNext {k : TokenKind} {K : FormalLanguage Token} (hr : r.Sound) (hk : k ≠ .eof)
    (hK : ∀ t ts, t :: ts ∈ K → t.kind ≠ k) (hP : P ↔ r.following ∈ optional (one k) * K) :
    Decides (if decide (r.upcoming.kind = k) = true then Reading.next else Pure.pure ()) r P fun _ r' =>
      Later r.advance r'.advance ∧ (P ↔ r'.following ∈ K) := by
  rw [mem_optional_mul] at hP
  by_cases hup : r.upcoming.kind = k
  · have hfollow : r.following = r.upcoming :: r.advance.following := following_eq hr (hup ▸ hk)
    have hnot : r.following ∉ K := fun h => hK _ _ (hfollow ▸ h) hup
    rw [or_iff_right hnot, hfollow, cons_mem_one_mul, and_iff_right hup] at hP
    rw [if_pos (by simpa using hup)]
    refine next.mono ?_
    rintro - r' - rfl
    exact ⟨later_advance _, hP⟩
  · rw [or_iff_left fun h => hup (upcoming_kind h)] at hP
    rw [if_neg (by simpa using hup)]
    exact pure ⟨.refl _, hP⟩

end Decides

/-! ### Fragments -/

/-- What the search for the end of a fragment may answer after `d` open brackets; `e` is the end of the source. -/
def EndsRight (stops : List TokenKind) (e : Token) (d : Nat) (items : List Item) : FragmentEnd → Prop
  | .found stop rest => ∃ us i is, items = us ++ i :: is ∧ rest = i :: is ∧ i.token = stop ∧
      us.map (·.token) ∈ fragmentFrom stops d ∧ stop.kind ∈ stops
  | .unbalanced _ rest => rest <:+ items ∧ NoEnd stops d (items.map (·.token) ++ [e])
  | .exhausted => NoEnd stops d (items.map (·.token) ++ [e])

/-- A search can pass an item that does not end it. -/
theorem EndsRight.cons {stops : List TokenKind} {e : Token} {d d' : Nat} {i : Item} {rest : List Item}
    {result : FragmentEnd} (h : EndsRight stops e d' rest result) (hi : i.token.kind ≠ .eof)
    (hstop : d = 0 → i.token.kind ∉ stops) (hd : (d : Int) + weight i.token = d') :
    EndsRight stops e d (i :: rest) result := by
  have hzero : (d : Int) = 0 → i.token.kind ∉ stops := fun h => hstop (by omega)
  cases result with
  | found stop rest' =>
    obtain ⟨us, j, is, rfl, hrest', hj, hus, hk⟩ := h
    refine ⟨i :: us, j, is, rfl, hrest', hj, ?_, hk⟩
    exact cons_mem_fragmentFrom.2 ⟨hi, hzero, by omega, hd ▸ hus⟩
  | unbalanced stop rest' => exact ⟨h.1.trans (List.suffix_cons i rest), noEnd_cons hzero (hd ▸ h.2)⟩
  | exhausted => exact noEnd_cons hzero (hd ▸ h)

theorem endsRight_findFragmentEnd {stops : List TokenKind} (hstops : .eof ∉ stops) {e : Token} (he : e.kind = .eof)
    {items : List Item} (hitems : ∀ i ∈ items, i.kind ≠ .eof) (d : Nat) :
    EndsRight stops e d items (findFragmentEnd stops d items) := by
  induction items generalizing d with
  | nil =>
    simp only [findFragmentEnd]
    intro u s v hsplit hu
    cases u with
    | nil =>
      obtain ⟨rfl, -⟩ := List.cons.inj hsplit
      rwa [he]
    | cons a u =>
      obtain ⟨rfl, -⟩ := List.cons.inj hsplit
      exact absurd he (cons_mem_fragmentFrom.1 hu).1
  | cons i rest ih =>
    have hi : i.token.kind ≠ .eof := hitems i (by simp)
    have ih' := ih fun j hj => hitems j (by simp [hj])
    cases d with
    | zero =>
      rw [findFragmentEnd]
      split
      · rename_i hstop
        exact ⟨[], i, rest, rfl, rfl, rfl, nil_mem_fragmentFrom.2 rfl, hstop⟩
      · rename_i hstop
        split
        · rename_i hopen
          exact (ih' 1).cons hi (fun _ => hstop) (by rw [weight_opening hopen]; rfl)
        · rename_i hopen
          split
          · rename_i hclose
            refine ⟨List.suffix_rfl, noEnd_cons (fun _ => hstop) fun u s v _ hu => ?_⟩
            have hnonneg := nonneg_of_mem hu
            rw [weight_closing hopen hclose] at hnonneg
            exact absurd hnonneg (by decide)
          · rename_i hclose
            exact (ih' 0).cons hi (fun _ => hstop) (by rw [weight_other hopen hclose]; rfl)
    | succ d =>
      have hinner : d + 1 = 0 → i.token.kind ∉ stops := fun h => absurd h (by omega)
      rw [findFragmentEnd]
      split
      · rename_i hopen
        exact (ih' (d + 2)).cons hi hinner (by rw [weight_opening hopen]; omega)
      · rename_i hopen
        split
        · rename_i hclose
          exact (ih' d).cons hi hinner (by rw [weight_closing hopen hclose]; omega)
        · rename_i hclose
          exact (ih' (d + 1)).cons hi hinner (by rw [weight_other hopen hclose]; omega)

namespace Decides

theorem fragment {stops : List TokenKind} {wanted : TokenKind} (hr : r.Sound) (hstops : .eof ∉ stops)
    (hnone : NoEnd stops 0 r.tokens → ¬ P) : Decides (fragment stops wanted) r P fun a r' => ∃ u,
      a = (fragmentText r.source u r'.current, r'.current) ∧ r.tokens = u ++ r'.current :: r'.following ∧
      u ∈ Grammar.fragment stops ∧ r'.current.kind ∈ stops := by
  rw [Reading.fragment]
  refine get.bind ?_
  rintro a r' - - ⟨rfl, rfl⟩
  have hright := endsRight_findFragmentEnd hstops hr.ending hr.items 0
  split
  · rename_i stop rest heq
    rw [heq] at hright
    obtain ⟨us, i, is, hitems, rfl, rfl, hus, hk⟩ := hright
    have hcurrent : r'.current = (us.map (·.token)).headD i.token := by
      rw [current, hitems]
      cases us <;> rfl
    have hu : us.map (·.token) ∈ Grammar.fragment stops := hus
    refine (set ⟨us, hitems.symm⟩).bind ?_
    rintro - r₁ - - rfl
    refine pure ⟨us.map (·.token), ?_, ?_, hu, hk⟩
    · rw [hcurrent]
      rfl
    · rw [← tokens_eq]
      simp [tokens, hitems]
  · rename_i stop rest heq
    rw [heq] at hright
    refine (set hright.1).bind fun _ _ _ _ _ => ?_
    exact refuse (hnone hright.2)
  · rename_i heq
    rw [heq] at hright
    refine (set List.nil_suffix).bind fun _ _ _ _ _ => ?_
    exact refuse (hnone hright)

theorem fragmentTo {k : TokenKind} {K : FormalLanguage Token} (hr : r.Sound) (hk : k ≠ .eof)
    (hP : P ↔ r.tokens ∈ Grammar.fragment [k] * (one k * K)) :
    Decides (fragmentTo k) r P fun _ r' => r'.current.kind = k ∧ (P ↔ r'.following ∈ K) := by
  rw [Reading.fragmentTo]
  refine (fragment hr (by simpa using hk.symm) fun hnone hp => ?_).bind ?_
  · exact hnone.notMem_fragment_mul (by simp) (hP.1 hp)
  · rintro a r' - - ⟨u, rfl, htokens, hu, hstop⟩
    have hkind : r'.current.kind = k := by simpa using hstop
    rw [htokens, mem_fragment_mul hu hstop (by simp)] at hP
    exact pure ⟨hkind, hP.trans (and_iff_right hkind)⟩

theorem group {opening closing : TokenKind} {K : FormalLanguage Token} (hr : r.Sound) (ho : opening ≠ .eof)
    (hc : closing ≠ .eof) (hP : P ↔ r.tokens ∈ Grammar.group opening closing * K) :
    Decides (group opening closing) r P fun _ r' => r'.current.kind = closing ∧ (P ↔ r'.following ∈ K) := by
  rw [Grammar.group, mul_assoc, mul_assoc, tokens_eq, cons_mem_one_mul] at hP
  rw [Reading.group]
  refine get.bind ?_
  rintro a r' - - ⟨rfl, rfl⟩
  by_cases hopen : r'.current.kind = opening
  · rw [if_pos hopen]
    refine next.bind ?_
    rintro - r₁ hlater - rfl
    refine fragmentTo (hlater.sound hr) hc ?_
    rw [tokens_advance hr (hopen ▸ ho)]
    exact hP.trans (and_iff_right hopen)
  · rw [if_neg hopen]
    exact refuse fun hp => hopen (hP.1 hp).1

/-- Type parameters may stand before what does not begin with a bracket. -/
theorem typeParams {K : FormalLanguage Token} (hr : r.Sound) (hK : ∀ t ts, t :: ts ∈ K → t.kind ≠ .lbracket)
    (hP : P ↔ r.tokens ∈ optional (Grammar.group .lbracket .rbracket) * K) :
    Decides typeParams r P fun _ r' => P ↔ r'.tokens ∈ K := by
  rw [mem_optional_mul] at hP
  rw [Reading.typeParams]
  refine (at? _).bind ?_
  rintro b r' - - ⟨rfl, rfl⟩
  by_cases hopen : r'.current.kind = .lbracket
  · have hnot : r'.tokens ∉ K := fun h => hK _ _ (tokens_eq r' ▸ h) hopen
    rw [if_pos (by simpa using hopen)]
    refine (group hr (by simp) (by simp) (hP.trans (or_iff_right hnot))).bind ?_
    rintro t r₁ hlater - ⟨hk, h⟩
    refine next.bind ?_
    rintro - r₂ - - rfl
    refine pure ?_
    rw [tokens_advance (hlater.sound hr) (by simp [hk])]
    exact h
  · have hnot : r'.tokens ∉ Grammar.group .lbracket .rbracket * K := by
      rw [Grammar.group, mul_assoc, mul_assoc, tokens_eq, cons_mem_one_mul]
      exact fun h => hopen h.1
    rw [if_neg (by simpa using hopen)]
    exact pure (hP.trans (or_iff_left hnot))

end Decides

end Reading

end MeaningForest

import MeaningForest.Proofs.Phrases

/-!
# Acceptance of declaration files

Reading a declaration file reports no problem exactly if the tokens of the file belong to the grammar.  A loop of the
reader goes on after a problem; its run is `Judged`: either nothing was noted and what is left decides acceptance, or
something was noted and the file is not accepted.
-/

namespace MeaningForest

open Reader Grammar Computability

variable {lang : Language}

namespace Reader

variable {r r' r'' : Reader} {P Q : Prop} {K : FormalLanguage Token}

/-- Reading from `r` to `r'` noted nothing and established `Q`, or it noted a problem and `P` is false. -/
structure Judged (r r' : Reader) (P Q : Prop) : Prop where
  later : Later r r'
  verdict : r'.problems = r.problems ∧ Q ∨ r.problems.length < r'.problems.length ∧ ¬ P

theorem Judged.length_le (h : Judged r r' P Q) : r.problems.length ≤ r'.problems.length := by
  rcases h.verdict with ⟨hsame, -⟩ | ⟨hlt, -⟩
  · rw [hsame]
  · exact hlt.le

/-- After a problem it does not matter what is read. -/
theorem Judged.of_grown {P' Q' : Prop} (hlater : Later r r') (hlt : r.problems.length < r'.problems.length) (hP : ¬ P)
    (h : Judged r' r'' P' Q') : Judged r r'' P Q :=
  ⟨hlater.trans h.later, .inr ⟨hlt.trans_le h.length_le, hP⟩⟩

theorem Judged.of_same (hlater : Later r r') (hsame : r'.problems = r.problems) (h : Judged r' r'' P Q) :
    Judged r r'' P Q :=
  ⟨hlater.trans h.later, hsame ▸ h.verdict⟩

theorem Judged.mono {Q' : Prop} (h : Judged r r' P Q) (hQ : Q → Q') : Judged r r' P Q' :=
  ⟨h.later, h.verdict.imp_left (And.imp_right hQ)⟩

theorem judged_note {t : Token} {p : ReadProblem} (hP : ¬ P) : Judged r (r.note t p) P Q :=
  ⟨⟨rfl, rfl, List.suffix_rfl⟩, .inr ⟨by simp [note], hP⟩⟩

/-! ### Members -/

theorem skipMember_suffix (depth : Nat) (items : List Item) : skipMember depth items <:+ items := by
  have hcons : ∀ {l rest : List Item} {i : Item}, l <:+ rest → l <:+ i :: rest :=
    fun h => h.trans (List.suffix_cons _ _)
  fun_induction skipMember depth items with
  | case1 => exact List.suffix_rfl
  | case2 i rest _ ih => exact hcons ih
  | case3 => exact List.suffix_rfl
  | case4 i rest => exact List.suffix_cons i rest
  | case5 => exact List.suffix_rfl
  | case6 i rest _ _ _ _ ih => exact hcons ih
  | case7 depth i rest _ ih => exact hcons ih
  | case8 i rest => exact List.suffix_cons i rest
  | case9 depth i rest _ _ _ ih => exact hcons ih
  | case10 depth i rest _ _ ih => exact hcons ih

theorem later_recoverMember (r : Reader) : Later r r.recoverMember := by
  rw [recoverMember]
  split
  · exact .refl r
  · exact ⟨rfl, rfl, (skipMember_suffix 0 _).trans (List.drop_suffix 1 r.items)⟩

theorem member_judged {d d' : MeaningDecl} (hr : r.Sound) (hP : P ↔ r.tokens ∈ member (Written r.source) * K)
    (hrun : (match (Reading.member d).run r with
      | (some d', r') => (d', r')
      | (none, r') => (d, r'.recoverMember)) = (d', r')) :
    Judged r r' P (Later r.advance r' ∧ (P ↔ r'.tokens ∈ K)) := by
  have hmember := Reading.Decides.member d hr hP
  split at hrun
  · rename_i hsome
    obtain ⟨-, rfl⟩ := Prod.mk.inj hrun
    obtain ⟨hlater, hsame, hQ⟩ := hmember.of_some hsome
    exact ⟨hlater, .inl ⟨hsame, hQ⟩⟩
  · rename_i r₁ hnone
    obtain ⟨-, rfl⟩ := Prod.mk.inj hrun
    obtain ⟨hlater, hgrown, hnot⟩ := hmember.of_none hnone
    have hproblems : r₁.recoverMember.problems = r₁.problems := by
      rw [recoverMember]
      split <;> rfl
    exact ⟨hlater.trans (later_recoverMember r₁), .inr ⟨hproblems ▸ hgrown, hnot⟩⟩

theorem members_judged (d : MeaningDecl) (hr : r.Sound)
    (hP : P ↔ r.tokens ∈ (member (Written r.source))∗ * (one .rbrace * K)) :
    Judged r (r.members d).1 P (Later r.advance (r.members d).1 ∧ (P ↔ (r.members d).1.tokens ∈ K)) := by
  fun_induction r.members d generalizing P with
  | case1 r d hclose =>
    rw [mem_kstar_mul, tokens_eq, cons_mem_one_mul, cons_mem_member_mul, and_iff_right hclose] at hP
    refine ⟨later_advance r, .inl ⟨rfl, .refl _, ?_⟩⟩
    rw [tokens_advance hr (by simp [hclose])]
    simpa [hclose] using hP
  | case2 r d hclose hend =>
    refine judged_note fun hp => ?_
    rw [mem_kstar_mul, tokens_eq, cons_mem_one_mul, cons_mem_member_mul] at hP
    rcases hend with hend | hend
    · simpa [hend] using hP.1 hp
    · simpa [hend] using hP.1 hp
  | case3 r d hclose hend d' r' hrun hlt ih =>
    rw [mem_kstar_mul, or_iff_right fun h => hclose (cons_mem_one_mul.1 (tokens_eq r ▸ h)).1] at hP
    have hmember := member_judged hr hP hrun
    have hr' := hmember.later.sound hr
    rcases hmember.verdict with ⟨hsame, hadv, hP'⟩ | ⟨hgrown, hnot⟩
    · rw [← hmember.later.source] at hP'
      refine .of_same hmember.later hsame ((ih hr' hP').mono ?_)
      rintro ⟨h, hQ⟩
      exact ⟨hadv.trans ((later_advance r').trans h), hQ⟩
    · exact .of_grown hmember.later hgrown hnot (ih hr' Iff.rfl)
  | case4 r d hclose hend d' r' hrun hlt =>
    rw [mem_kstar_mul, or_iff_right fun h => hclose (cons_mem_one_mul.1 (tokens_eq r ▸ h)).1] at hP
    have hmember := member_judged hr hP hrun
    refine ⟨hmember.later, hmember.verdict.imp_left ?_⟩
    rintro ⟨-, hadv, -⟩
    exact absurd (hadv.length_lt hr fun h => hend (.inl h)) hlt

/-! ### Declarations -/

theorem later_recoverDeclaration (r : Reader) : Later r r.recoverDeclaration :=
  ⟨rfl, rfl, (List.dropWhile_suffix _).trans (List.drop_suffix 1 r.items)⟩

theorem later_passSemicolon (r : Reader) : Later r r.passSemicolon := by
  rw [passSemicolon]
  split
  · exact later_advance r
  · exact .refl r

theorem problems_passSemicolon (r : Reader) : r.passSemicolon.problems = r.problems := by
  rw [passSemicolon]
  split <;> rfl

theorem tokens_passSemicolon (hr : r.Sound) (hK : Absorbs K) :
    r.passSemicolon.tokens ∈ K ↔ r.tokens ∈ optional (one .semicolon) * K := by
  rw [passSemicolon, r.tokens_eq]
  split
  · rename_i hsemi
    rw [hK.optional_mul hsemi, tokens_advance hr (by simp [hsemi])]
  · rename_i hsemi
    rw [cons_mem_optional_mul hsemi, ← tokens_eq]

theorem importSpecs_judged (specs : List ImportDecl) (hr : r.Sound)
    (hP : P ↔ r.tokens ∈ (spec + one .semicolon)∗ * (one .rparen * K)) :
    Judged r (r.importSpecs specs).1 P (P ↔ (r.importSpecs specs).1.tokens ∈ K) := by
  fun_induction r.importSpecs specs generalizing P with
  | case1 r specs hclose =>
    refine ⟨later_advance r, .inl ⟨rfl, ?_⟩⟩
    rw [tokens_eq, cons_mem_specs, and_iff_right hclose, or_iff_left, ← tokens_advance hr (by simp [hclose])] at hP
    · exact hP
    · rintro (h | h)
      · simpa [hclose] using h.1
      · simpa [hclose] using kind_of_spec h
  | case2 r specs hclose hend =>
    refine judged_note fun hp => ?_
    rw [tokens_eq, cons_mem_specs] at hP
    rcases hP.1 hp with h | h | h
    · exact hclose h.1
    · simpa [hend] using h.1
    · simpa [hend] using kind_of_spec h
  | case3 r specs hclose hend hsemi hlt ih =>
    rw [tokens_eq, cons_mem_specs, or_iff_right fun h => hclose h.1, and_iff_right hsemi,
      or_iff_left fun h => by simpa [hsemi] using kind_of_spec h, ← tokens_advance hr hend] at hP
    exact .of_same (later_advance r) rfl (ih ((later_advance r).sound hr) hP)
  | case4 r specs hclose hend hsemi hlt => exact absurd (length_advance hr hend) hlt
  | case5 r specs hclose hend hsemi s r' hrun hlt ih =>
    rw [tokens_eq, cons_mem_specs, or_iff_right fun h => hclose h.1, or_iff_right fun h => hsemi h.1, ← tokens_eq] at hP
    obtain ⟨hlater, hsame, -, hP'⟩ := (Reading.Decides.importSpec hr hP).of_some hrun
    exact .of_same hlater hsame (ih (hlater.sound hr) hP')
  | case6 r specs hclose hend hsemi s r' hrun hlt =>
    rw [tokens_eq, cons_mem_specs, or_iff_right fun h => hclose h.1, or_iff_right fun h => hsemi h.1, ← tokens_eq] at hP
    obtain ⟨-, -, hadv, -⟩ := (Reading.Decides.importSpec hr hP).of_some hrun
    exact absurd (hadv.length_lt hr hend) hlt
  | case7 r specs hclose hend hsemi r' hrun =>
    rw [tokens_eq, cons_mem_specs, or_iff_right fun h => hclose h.1, or_iff_right fun h => hsemi h.1, ← tokens_eq] at hP
    obtain ⟨hlater, hgrown, hnot⟩ := (Reading.Decides.importSpec hr hP).of_none hrun
    exact ⟨hlater.trans (later_recoverDeclaration r'), .inr ⟨hgrown, hnot⟩⟩

theorem importDecl_judged (hr : r.Sound) (hK : Absorbs K) (hk : r.current.kind = .keyword .import)
    (hP : P ↔ r.tokens ∈ Grammar.importDecl * K) :
    Judged r r.importDecl.1 P (Later r.advance r.importDecl.1 ∧ (P ↔ r.importDecl.1.tokens ∈ K)) := by
  simp only [Grammar.importDecl, mem_add_mul, mul_assoc] at hP
  rw [tokens_eq, cons_mem_one_mul, cons_mem_one_mul, and_iff_right hk, and_iff_right hk,
    ← tokens_advance hr (by simp [hk])] at hP
  have hr₁ := (later_advance r).sound hr
  rw [importDecl]
  by_cases hopen : r.advance.current.kind = .lparen
  · rw [if_pos hopen]
    have hspec : r.advance.tokens ∉ spec * (optional (one .semicolon) * K) := by
      rw [tokens_eq]
      exact fun h => by simpa [hopen] using kind_of_spec h
    rw [or_iff_right hspec, tokens_eq, cons_mem_one_mul, and_iff_right hopen,
      ← tokens_advance hr₁ (by simp [hopen])] at hP
    have hspecs := @importSpecs_judged lang _ _ _ [] ((later_advance _).sound hr₁) hP
    have hadv := (later_advance r.advance).trans hspecs.later
    exact .of_same ((later_advance r).trans (later_advance _)) rfl (hspecs.mono fun h => ⟨hadv, h⟩)
  · rw [if_neg hopen]
    have hgroup : r.advance.tokens ∉ one .lparen * ((spec + one .semicolon)∗ * (one .rparen * K)) := by
      rw [tokens_eq, cons_mem_one_mul]
      exact fun h => hopen h.1
    rw [or_iff_left hgroup] at hP
    have hspec := Reading.Decides.importSpec hr₁ hP
    split
    · rename_i s r' hrun
      obtain ⟨hlater, hsame, -, hP'⟩ := hspec.of_some hrun
      rw [← tokens_passSemicolon (hlater.sound hr₁) hK] at hP'
      have hadv := hlater.trans (later_passSemicolon r')
      exact ⟨(later_advance r).trans hadv, .inl ⟨(problems_passSemicolon r').trans hsame, hadv, hP'⟩⟩
    · rename_i r' hrun
      obtain ⟨hlater, hgrown, hnot⟩ := hspec.of_none hrun
      refine ⟨(later_advance r).trans (hlater.trans (later_passSemicolon r')), .inr ⟨?_, hnot⟩⟩
      rw [problems_passSemicolon]
      exact hgrown

theorem named_judged {w : Keyword} (hr : r.Sound) (hK : Absorbs K) (hk : r.current.kind = .keyword w)
    (hP : P ↔ r.tokens ∈ named w * K) (hr' : r' = (Reading.named.run r).2.advance.passSemicolon) :
    Judged r r' P (Later r.advance r' ∧ (P ↔ r'.tokens ∈ K)) := by
  simp only [named, mul_assoc] at hP
  rw [tokens_eq, cons_mem_one_mul, and_iff_right hk] at hP
  have hnamed := Reading.Decides.named hr hP
  rcases hrun : Reading.named.run r with ⟨_ | name, r₁⟩
  · rw [hrun] at hr'
    obtain ⟨hlater, hgrown, hnot⟩ := hnamed.of_none hrun
    rw [hr']
    refine ⟨hlater.trans ((later_advance r₁).trans (later_passSemicolon _)), .inr ⟨?_, hnot⟩⟩
    rw [problems_passSemicolon]
    exact hgrown
  · rw [hrun] at hr'
    obtain ⟨hlater, hsame, rfl, hident, hP'⟩ := hnamed.of_some hrun
    have hr₁ := hlater.sound hr
    rw [← tokens_advance hr₁ (by simp [hident]), ← tokens_passSemicolon ((later_advance _).sound hr₁) hK] at hP'
    have hadv := (later_advance r.advance).trans (later_passSemicolon _)
    rw [hr']
    exact ⟨hlater.trans hadv, .inl ⟨(problems_passSemicolon _).trans hsame, hadv, hP'⟩⟩

theorem meaning_judged (f : DeclFile) (hr : r.Sound) (hk : r.current.kind = .keyword .meaning)
    (hP : P ↔ r.tokens ∈ meaning (Written r.source) * K) :
    Judged r (r.declaration f).1 P (Later r.advance (r.declaration f).1 ∧ (P ↔ (r.declaration f).1.tokens ∈ K)) := by
  simp only [meaning, mul_assoc] at hP
  rw [tokens_eq, cons_mem_one_mul, and_iff_right hk] at hP
  have hhead := Reading.Decides.meaningHead hr (by simpa only [mul_assoc] using hP)
  rw [declaration, hk]
  dsimp only
  split
  · rename_i d r₁ hrun
    obtain ⟨hlater, hsame, hadv, hP'⟩ := hhead.of_some hrun
    rw [← hlater.source] at hP'
    refine .of_same hlater hsame ((members_judged d (hlater.sound hr) hP').mono ?_)
    rintro ⟨h, hQ⟩
    exact ⟨hadv.trans ((later_advance r₁).trans h), hQ⟩
  · rename_i r₁ hrun
    obtain ⟨hlater, hgrown, hnot⟩ := hhead.of_none hrun
    exact ⟨hlater.trans (later_recoverDeclaration r₁), .inr ⟨hgrown, hnot⟩⟩

theorem declaration_judged (f : DeclFile) (hr : r.Sound) (hK : Absorbs K)
    (hP : P ↔ r.tokens ∈ Grammar.declaration (Written r.source) * K) :
    Judged r (r.declaration f).1 P (Later r.advance (r.declaration f).1 ∧ (P ↔ (r.declaration f).1.tokens ∈ K)) := by
  rw [tokens_eq, cons_mem_declaration_mul, ← tokens_eq] at hP
  by_cases hmeaning : r.current.kind = .keyword .meaning
  · exact meaning_judged f hr hmeaning (by simpa [hmeaning] using hP)
  rw [declaration]
  split
  · rename_i hk
    exact named_judged hr hK hk (by simpa [hk] using hP) rfl
  · rename_i hk
    exact named_judged hr hK hk (by simpa [hk] using hP) rfl
  · rename_i hk
    exact importDecl_judged hr hK hk (by simpa [hk] using hP)
  · rename_i hk
    exact absurd hk hmeaning
  · rename_i hk
    refine ⟨later_advance r, .inl ⟨rfl, .refl _, ?_⟩⟩
    rw [tokens_advance hr (by simp [hk])]
    simpa [hk] using hP
  · rename_i hpackage harena himport _ hsemi
    have hnot : ¬ P := by
      rw [hP]
      rintro (h | h | h | h | h)
      · exact hpackage h.1
      · exact himport h.1
      · exact harena h.1
      · exact hmeaning h.1
      · exact hsemi h.1
    have hnote : Judged r (r.note r.current (.unexpectedTopLevel r.current)) P P := judged_note hnot
    refine ⟨hnote.later.trans (later_recoverDeclaration _), .inr ⟨?_, hnot⟩⟩
    simp [recoverDeclaration, note]

theorem declarations_judged (f : DeclFile) (hr : r.Sound) (hP : P ↔ r.tokens ∈ file (Written r.source)) :
    Judged r (r.declarations f).1 P P := by
  fun_induction r.declarations f generalizing P with
  | case1 r f hend =>
    refine ⟨.refl r, .inl ⟨rfl, hP.2 ?_⟩⟩
    have hitems : r.items = [] := by
      cases hi : r.items with
      | nil => rfl
      | cons i rest => exact absurd (by simpa [current, hi, Item.kind] using hend) (hr.items i (by simp [hi]))
    rw [file, mem_kstar_mul, tokens, hitems]
    exact .inl ⟨r.ending, hr.ending, rfl⟩
  | case2 r f hend r' f' hrun hlt ih =>
    rw [tokens_eq, cons_mem_file hend, ← tokens_eq] at hP
    have hdecl := @declaration_judged lang _ _ _ f hr absorbs_file hP
    rw [hrun] at hdecl
    have hr' := hdecl.later.sound hr
    rcases hdecl.verdict with ⟨hsame, -, hP'⟩ | ⟨hgrown, hnot⟩
    · rw [← hdecl.later.source] at hP'
      exact .of_same hdecl.later hsame (ih hr' hP')
    · exact .of_grown hdecl.later hgrown hnot (ih hr' Iff.rfl)
  | case3 r f hend r' f' hrun hlt =>
    rw [tokens_eq, cons_mem_file hend, ← tokens_eq] at hP
    have hdecl := @declaration_judged lang _ _ _ f hr absorbs_file hP
    rw [hrun] at hdecl
    refine ⟨hdecl.later, hdecl.verdict.imp_left ?_⟩
    rintro ⟨-, hadv, -⟩
    exact absurd (hadv.length_lt hr hend) hlt

end Reader

/-! ### Sources -/

namespace Lexeme

private theorem ite_ne_eof {p : Prop} [Decidable p] {k k' : TokenKind} (hk : k ≠ .eof) (hk' : k' ≠ .eof) :
    (if p then k else k') ≠ .eof := by
  split
  · exact hk
  · exact hk'

private theorem ofWord_ne_eof (t : Text) : TokenKind.ofWord t ≠ .eof := by
  rw [TokenKind.ofWord]
  split <;> simp

private theorem numeral_ne_eof (b : UInt8) (t : Text) : (numeral b t).1 ≠ .eof := by
  rw [numeral]
  split
  · simp
  · exact ite_ne_eof (by simp) (by simp)

private theorem single_ne_eof (b : UInt8) : single b ≠ .eof := by
  rw [single]
  repeat refine ite_ne_eof (by simp) ?_
  simp

private theorem symbolic_ne_eof (b : UInt8) (t : Text) : (symbolic b t).1 ≠ .eof := by
  rw [symbolic]
  split
  · simp
  · exact single_ne_eof b

private theorem dots?_ne_eof {b : UInt8} {t : Text} {p : TokenKind × Nat} (h : dots? b t = some p) : p.1 ≠ .eof := by
  rw [dots?] at h
  split at h
  · split at h
    · obtain rfl := Option.some.inj h
      simp
    · obtain rfl := Option.some.inj h
      simp
  · cases h

/-- No byte of the source starts its end. -/
theorem measure_ne_eof {b : UInt8} {t : Text} {p : TokenKind × Nat} (h : measure b t = some p) : p.1 ≠ .eof := by
  rw [measure] at h
  split at h
  · obtain rfl := Option.some.inj h
    exact ite_ne_eof (by simp) (by simp)
  split at h
  · obtain rfl := Option.some.inj h
    simp
  split at h
  · obtain ⟨n, -, rfl⟩ := Option.map_eq_some_iff.1 h
    simp
  split at h
  · obtain ⟨n, -, rfl⟩ := Option.map_eq_some_iff.1 h
    simp
  split at h
  · obtain rfl := Option.some.inj h
    simp
  split at h
  · obtain rfl := Option.some.inj h
    exact ofWord_ne_eof _
  split at h
  · obtain rfl := Option.some.inj h
    exact numeral_ne_eof b t
  split at h
  · rename_i hdots
    exact Option.some.inj h ▸ dots?_ne_eof hdots
  · exact Option.some.inj h ▸ symbolic_ne_eof b t

end Lexeme

/-- The end of the source is the last token and no other one. -/
theorem Token.scanFrom_eq_ok {total : Nat} {m : Mark} {t : Text} {tokens : List Token}
    (h : scanFrom total m t = .ok tokens) :
    ∃ body ending, tokens = body ++ [ending] ∧ ending.kind = .eof ∧ ∀ s ∈ body, s.kind ≠ .eof := by
  fun_induction scanFrom total m t generalizing tokens with
  | case1 m t =>
    obtain rfl := Except.ok.inj h
    exact ⟨[], _, rfl, rfl, by simp⟩
  | case2 m t =>
    obtain rfl := Except.ok.inj h
    exact ⟨[], _, rfl, rfl, by simp⟩
  | case3 => cases h
  | case4 m t b rest hgap m' hb kind n hmeasure bytes after =>
    rename_i ih
    cases hrest : scanFrom total after (rest.drop n) with
    | error e =>
      rw [hrest] at h
      cases h
    | ok ts =>
      rw [hrest] at h
      obtain rfl := Except.ok.inj h
      obtain ⟨body, ending, rfl, he, hbody⟩ := ih hrest
      refine ⟨_ :: body, ending, rfl, he, ?_⟩
      intro s hs
      rcases List.mem_cons.1 hs with rfl | hs
      · exact Lexeme.measure_ne_eof hmeasure
      · exact hbody s hs

theorem Item.map_token_ofTokens (doc : List Text) (tokens : List Token) :
    (ofTokens doc tokens).map (·.token) = tokens.filter (!·.kind.isComment) := by
  fun_induction ofTokens doc tokens with
  | case1 => rfl
  | case2 doc t ts hk ih => simp [ih, hk, TokenKind.isComment]
  | case3 doc t ts hk ih => simp [ih, hk, TokenKind.isComment]
  | case4 doc t ts hdoc hcomment ih =>
    have hother : t.kind.isComment = false := by
      cases hk : t.kind <;> simp_all [TokenKind.isComment]
    simp [ih, hother]

namespace Reader

variable (source : Text) {body : List Token} {ending : Token}

theorem items_ofTokens (he : ending.kind = .eof) (hbody : ∀ t ∈ body, t.kind ≠ .eof) :
    (ofTokens source (body ++ [ending])).items = Item.ofTokens [] body := by
  have hfilter : (body ++ [ending]).filter (fun t => decide (t.kind ≠ .eof)) = body := by
    rw [List.filter_append, List.filter_eq_self.2 (by simpa using hbody)]
    simp [he]
  rw [ofTokens, hfilter]

theorem ending_ofTokens : (ofTokens source (body ++ [ending])).ending = ending := by
  simp [ofTokens]

theorem tokens_ofTokens (he : ending.kind = .eof) (hbody : ∀ t ∈ body, t.kind ≠ .eof) :
    (ofTokens source (body ++ [ending])).tokens = (body ++ [ending]).filter (!·.kind.isComment) := by
  rw [tokens, items_ofTokens source he hbody, ending_ofTokens, Item.map_token_ofTokens, List.filter_append]
  simp [he, TokenKind.isComment]

theorem sound_ofTokens (he : ending.kind = .eof) (hbody : ∀ t ∈ body, t.kind ≠ .eof) :
    (ofTokens source (body ++ [ending])).Sound := by
  refine ⟨by rwa [ending_ofTokens], ?_⟩
  rw [items_ofTokens source he hbody]
  intro i hi
  have hmem : i.token ∈ body.filter (!·.kind.isComment) := by
    rw [← Item.map_token_ofTokens []]
    exact List.mem_map_of_mem hi
  exact hbody i.token (List.mem_of_mem_filter hmem)

end Reader

/-- Reading reports no problem exactly if the tokens that are not comments belong to the grammar in which the type and
the default of a field have a text. -/
theorem DeclFile.exists_read_accepts (name source : Text) {tokens : List Token} (h : Token.scan source = .ok tokens) :
    ∃ result, DeclFile.read name source = .ok result ∧
      (result.problems = [] ↔ tokens.filter (!·.kind.isComment) ∈ file (Written source)) := by
  obtain ⟨body, ending, rfl, he, hbody⟩ := Token.scanFrom_eq_ok h
  refine ⟨_, by rw [DeclFile.read, h]; rfl, ?_⟩
  rw [← tokens_ofTokens source he hbody]
  have hjudged := @declarations_judged lang _ _ { name } (sound_ofTokens source he hbody) Iff.rfl
  rcases hjudged.verdict with ⟨hsame, haccepted⟩ | ⟨hgrown, hrefused⟩
  · exact iff_of_true hsame haccepted
  · exact iff_of_false (List.ne_nil_of_length_pos (Nat.zero_lt_of_lt hgrown)) hrefused

def counterSource : Text :=
  "import f \"fmt\"; meaning A : B \x7b let x: int = 0; fn m(a T) \x7b \x7d \x7d"

theorem DeclFile.read_accepts_counterSource : ∃ tokens result, Token.scan counterSource = .ok tokens ∧
    @DeclFile.read .english "a.mt" counterSource = .ok result ∧ result.problems = [] ∧
    tokens.filter (!·.kind.isComment) ∈ file (Written counterSource) := by
  have hscan : (Token.scan counterSource).isOk = true := by decide +kernel
  have hclean : (@DeclFile.read .english "a.mt" counterSource).map (·.problems) = .ok [] := by decide +kernel
  cases htokens : Token.scan counterSource with
  | error e => simp [htokens, Except.isOk, Except.toBool] at hscan
  | ok tokens =>
    obtain ⟨result, hread, haccepts⟩ := DeclFile.exists_read_accepts "a.mt" counterSource htokens
    rw [hread] at hclean
    have hproblems : result.problems = [] := Except.ok.inj hclean
    exact ⟨tokens, result, rfl, hread, hproblems, haccepts.1 hproblems⟩

private theorem untyped_mem_file {tokens : List Token} (h : tokens.map (·.kind) =
    [.keyword .meaning, .ident, .lbrace, .keyword .let, .ident, .colon, .semicolon, .rbrace, .eof]) :
    tokens.filter (!·.kind.isComment) ∈ file fun _ _ => True := by
  have hfilter : tokens.filter (!·.kind.isComment) = tokens := by
    rw [List.filter_eq_self]
    intro t ht
    have hk : t.kind ∈ tokens.map (·.kind) := List.mem_map_of_mem ht
    rw [h] at hk
    revert hk
    generalize t.kind = k
    revert k
    decide
  rw [hfilter]
  simp only [List.map_eq_cons_iff, List.map_eq_nil_iff] at h
  obtain ⟨t₁, _, rfl, h₁, t₂, _, rfl, h₂, t₃, _, rfl, h₃, t₄, _, rfl, h₄, t₅, _, rfl, h₅, t₆, _, rfl, h₆, t₇, _,
    rfl, h₇, t₈, _, rfl, h₈, t₉, _, rfl, h₉, rfl⟩ := h
  rw [cons_mem_file (by simp [h₁]), cons_mem_declaration_mul]
  refine .inr (.inr (.inr (.inl ⟨h₁, ?_⟩)))
  simp only [meaning, mul_assoc, cons_mem_one_mul]
  refine ⟨h₁, h₂, mem_optional_mul.2 (.inl (cons_mem_one_mul.2 ⟨h₃, mem_kstar_mul.2 (.inr ?_)⟩))⟩
  rw [cons_mem_member_mul]
  refine .inr (.inl ⟨h₄, ?_⟩)
  simp only [field, mul_assoc, cons_mem_one_mul]
  refine ⟨h₄, mem_optional_mul.2 (.inl (cons_mem_one_mul.2 ⟨h₅, cons_mem_one_mul.2 ⟨h₆, mem_add_mul.2 (.inl ?_)⟩⟩))⟩
  have hnil : [] ∈ Grammar.fragment [.assign, .semicolon] := nil_mem_fragmentFrom.2 rfl
  refine (mem_ended_mul hnil (by simp [h₇]) (by simp)).2 ⟨h₇, trivial, mem_kstar_mul.2 (.inl ?_)⟩
  exact cons_mem_one_mul.2 ⟨h₈, mem_kstar_mul.2 (.inl ⟨t₉, h₉, rfl⟩)⟩

/-- A fragment may be empty in other places, but a field without a type is refused. -/
theorem DeclFile.read_refuses_untyped : ∃ tokens result, Token.scan "meaning A \x7b let x: ; \x7d" = .ok tokens ∧
    @DeclFile.read .english "a.mt" "meaning A \x7b let x: ; \x7d" = .ok result ∧ result.problems ≠ [] ∧
    tokens.filter (!·.kind.isComment) ∈ file fun _ _ => True := by
  have hproblems : (@DeclFile.read .english "a.mt" "meaning A \x7b let x: ; \x7d").map (·.problems.length) = .ok 1 := by
    decide +kernel
  have hkinds : (Token.scan "meaning A \x7b let x: ; \x7d").map (·.map (·.kind)) = .ok [.keyword .meaning, .ident,
      .lbrace, .keyword .let, .ident, .colon, .semicolon, .rbrace, .eof] := by
    decide +kernel
  cases hread : @DeclFile.read .english "a.mt" "meaning A \x7b let x: ; \x7d" with
  | error e =>
    rw [hread] at hproblems
    cases hproblems
  | ok result =>
    cases htokens : Token.scan "meaning A \x7b let x: ; \x7d" with
    | error e =>
      rw [htokens] at hkinds
      cases hkinds
    | ok tokens =>
      rw [hread] at hproblems
      rw [htokens] at hkinds
      have hlength : result.problems.length = 1 := Except.ok.inj hproblems
      refine ⟨tokens, result, rfl, rfl, ?_, untyped_mem_file (Except.ok.inj hkinds)⟩
      exact List.ne_nil_of_length_pos (by omega)

end MeaningForest

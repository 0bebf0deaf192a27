import MeaningForest.Proofs.Reading

/-!
# Phrases of declaration files

The steps that read a field, a constructor, a method, the head of a meaning and an import decide the languages of these
phrases.  A body may start with a semicolon of its own, and the semicolon after a call of the parent's constructor is
taken in any case; this agrees with the grammar since a body without its first semicolon is a body.
-/

namespace MeaningForest

open Reader Grammar Computability

variable [lang : Language]

namespace Reading.Decides

variable {r : Reader} {P : Prop} {K : FormalLanguage Token}

theorem field (hr : r.Sound) (hk : r.current.kind = .keyword .let)
    (hP : P ↔ r.tokens ∈ Grammar.field (Written r.source) * K) :
    Decides field r P fun _ r' => Later r.advance r' ∧ (P ↔ r'.tokens ∈ K) := by
  simp only [Grammar.field, mul_assoc] at hP
  rw [tokens_eq, cons_mem_one_mul, and_iff_right hk] at hP
  rw [Reading.field]
  refine (before? _).bind ?_
  rintro isRef r₀ - - ⟨rfl, rfl⟩
  dsimp only
  refine whether ((optionalNext hr (by simp) ?_ hP).bind ?_)
  · intro t ts h
    simp [(cons_mem_one_mul.1 h).1]
  rintro - r₁ h₁ - ⟨hadv, hP⟩
  have hr₁ := h₁.sound hr
  refine (require hr₁ (by simp) hP).bind ?_
  rintro - r₂ h₂ - ⟨rfl, -, hP⟩
  refine get.bind ?_
  rintro name r₂ - - ⟨rfl, rfl⟩
  refine (require (h₂.sound hr₁) (by simp) hP).bind ?_
  rintro - r₃ h₃ - ⟨rfl, hcolon, hP⟩
  have hr₃ := h₃.sound (h₂.sound hr₁)
  refine next.bind ?_
  rintro - r₄ h₄ - rfl
  rw [← tokens_advance hr₃ (by simp [hcolon]), mem_add_mul, mul_assoc] at hP
  have hr₄ := h₄.sound hr₃
  have hsource : r₁.advance.advance.advance.source = r₀.source := h₁.source
  refine (fragment hr₄ (by simp) fun hnone hp => ?_).bind ?_
  · rcases hP.1 hp with h | h
    · exact hnone.notMem_ended_mul (by simp) h
    · exact hnone.notMem_ended_mul (by simp) h
  rintro - r₅ h₅ - ⟨u, rfl, htokens, hu, hstop⟩
  have hr₅ := h₅.sound hr₄
  have hstop' : r₅.current.kind = .assign ∨ r₅.current.kind = .semicolon := by simpa using hstop
  rw [htokens, mem_ended_mul hu hstop (by simp), mem_ended_mul hu hstop (by simp)] at hP
  dsimp only
  rw [hsource]
  by_cases hwritten : Written r₀.source u r₅.current
  swap
  · rw [if_pos (by simpa [Written] using hwritten)]
    refine refuse_bind fun hp => ?_
    rcases hP.1 hp with h | h
    · exact hwritten h.2.1
    · exact hwritten h.2.1
  rw [if_neg (by simpa [Written] using hwritten)]
  rcases hstop' with hassign | hsemi
  · rw [if_pos hassign]
    simp only [hassign, reduceCtorEq, false_and, false_or, true_and] at hP
    rw [and_iff_right hwritten, ← tokens_advance hr₅ (by simp [hassign])] at hP
    refine next.bind ?_
    rintro - r₆ h₆ - rfl
    refine (fragment (h₆.sound hr₅) (by simp) fun hnone hp => hnone.notMem_ended_mul (by simp) (hP.1 hp)).bind ?_
    rintro - r₇ h₇ - ⟨v, rfl, htokens', hv, hstop'⟩
    have hsemi : r₇.current.kind = .semicolon := by simpa using hstop'
    have hsource' : r₅.advance.source = r₀.source := h₅.source.trans hsource
    rw [htokens', mem_ended_mul hv hstop' (by simp), and_iff_right hsemi] at hP
    dsimp only
    rw [hsource']
    by_cases hwritten' : Written r₀.source v r₇.current
    swap
    · rw [if_pos (by simpa [Written] using hwritten')]
      exact refuse_bind fun hp => hwritten' (hP.1 hp).1
    rw [if_neg (by simpa [Written] using hwritten')]
    rw [and_iff_right hwritten', ← tokens_advance (h₇.sound (h₆.sound hr₅)) (by simp [hsemi])] at hP
    refine next.bind ?_
    rintro - r₈ h₈ - rfl
    refine pure ⟨?_, hP⟩
    exact hadv.trans (h₃.trans (h₄.trans (h₅.trans (h₆.trans (h₇.trans h₈)))))
  · rw [if_neg (by simp [hsemi])]
    simp only [hsemi, reduceCtorEq, false_and, or_false, true_and] at hP
    rw [and_iff_right hwritten, ← tokens_advance hr₅ (by simp [hsemi])] at hP
    refine next.bind ?_
    rintro - r₆ h₆ - rfl
    exact pure ⟨hadv.trans (h₃.trans (h₄.trans (h₅.trans h₆))), hP⟩

theorem skipSemicolon (hr : r.Sound) (hK : Absorbs K) (hP : P ↔ r.tokens ∈ optional (one .semicolon) * K) :
    Decides skipSemicolon r P fun _ r' => P ↔ r'.tokens ∈ K := by
  rw [tokens_eq] at hP
  rw [Reading.skipSemicolon]
  refine (at? _).bind ?_
  rintro b r₁ - - ⟨rfl, rfl⟩
  by_cases hsemi : r₁.current.kind = .semicolon
  · rw [if_pos (by simpa using hsemi)]
    refine next.mono ?_
    rintro - r₂ - rfl
    rwa [hK.optional_mul hsemi, ← tokens_advance hr (by simp [hsemi])] at hP
  · rw [if_neg (by simpa using hsemi)]
    rw [cons_mem_optional_mul hsemi, ← tokens_eq] at hP
    exact pure hP

theorem superCall (hr : r.Sound) (hP : P ↔ r.tokens ∈
      (Grammar.superCall * Grammar.fragment [.rbrace] + plainBody) * (one .rbrace * K)) :
    Decides superCall r P fun _ r' => P ↔ r'.tokens ∈ Grammar.fragment [.rbrace] * (one .rbrace * K) := by
  simp only [Grammar.superCall, mem_add_mul, mul_assoc] at hP
  rw [tokens_eq, cons_mem_one_mul, cons_mem_plainBody_mul] at hP
  rw [Reading.superCall]
  refine (at? _).bind ?_
  rintro b r₁ - - ⟨rfl, rfl⟩
  by_cases hsuper : r₁.current.kind = .keyword .super
  · rw [if_pos (by simpa using hsuper)]
    rw [or_iff_left fun h => h.1 hsuper, and_iff_right hsuper, ← tokens_advance hr (by simp [hsuper])] at hP
    refine next.bind ?_
    rintro - r₂ h₂ - rfl
    refine (group (h₂.sound hr) (by simp) (by simp) hP).bind ?_
    rintro args r₃ h₃ - ⟨hclose, hP⟩
    have hr₃ := h₃.sound (h₂.sound hr)
    rw [← tokens_advance hr₃ (by simp [hclose])] at hP
    refine next.bind ?_
    rintro - r₄ h₄ - rfl
    refine (skipSemicolon (h₄.sound hr₃) absorbs_body hP).bind ?_
    intro _ r₅ _ _ hP
    exact pure hP
  · rw [if_neg (by simpa using hsuper)]
    rw [or_iff_right fun h => hsuper h.1, and_iff_right hsuper, ← tokens_eq] at hP
    exact pure hP

theorem constructor (hr : r.Sound) (hk : r.current.kind = .keyword .constructor)
    (hP : P ↔ r.tokens ∈ Grammar.constructor * K) :
    Decides constructor r P fun _ r' => Later r.advance r' ∧ (P ↔ r'.tokens ∈ K) := by
  simp only [Grammar.constructor, mul_assoc] at hP
  rw [tokens_eq, cons_mem_one_mul, and_iff_right hk, ← tokens_advance hr (by simp [hk])] at hP
  rw [Reading.constructor]
  refine get.bind ?_
  rintro a r₁ - - ⟨rfl, rfl⟩
  refine next.bind ?_
  rintro - r₂ h₂ - rfl
  have hr₂ := h₂.sound hr
  refine (typeParams hr₂ (by simp +contextual [Grammar.group, mul_assoc]) hP).bind ?_
  intro types r₃ h₃ _ hP
  have hr₃ := h₃.sound hr₂
  refine (group hr₃ (by simp) (by simp) hP).bind ?_
  rintro params r₄ h₄ - ⟨-, hP⟩
  have hr₄ := h₄.sound hr₃
  refine (require hr₄ (by simp) hP).bind ?_
  rintro - r₅ h₅ - ⟨rfl, hbrace, hP⟩
  have hr₅ := h₅.sound hr₄
  rw [← tokens_advance hr₅ (by simp [hbrace])] at hP
  refine next.bind ?_
  rintro - r₆ h₆ - rfl
  have hr₆ := h₆.sound hr₅
  refine (superCall hr₆ hP).bind ?_
  intro superArgs r₇ h₇ _ hP
  have hr₇ := h₇.sound hr₆
  refine (fragmentTo hr₇ (by simp) hP).bind ?_
  rintro body r₈ h₈ - ⟨hclose, hP⟩
  rw [← tokens_advance (h₈.sound hr₇) (by simp [hclose])] at hP
  refine next.bind ?_
  rintro - r₉ h₉ - rfl
  exact pure ⟨h₃.trans (h₄.trans (h₅.trans (h₆.trans (h₇.trans (h₈.trans h₉))))), hP⟩

theorem methodHead (hr : r.Sound) (hk : r.current.kind = .keyword .fn ∨ r.current.kind = .keyword .override)
    (hP : P ↔ r.tokens ∈ optional (one (.keyword .override)) * (one (.keyword .fn) * K)) :
    Decides methodHead r P fun _ r' => Later r.advance r'.advance ∧ (P ↔ r'.following ∈ K) := by
  rw [mem_optional_mul, tokens_eq, cons_mem_one_mul, cons_mem_one_mul] at hP
  rw [Reading.methodHead]
  refine get.bind ?_
  rintro a r₁ - - ⟨rfl, rfl⟩
  refine (at? _).bind ?_
  rintro b r₂ - - ⟨rfl, rfl⟩
  rcases hk with hfn | hoverride
  · rw [if_neg (by simp [hfn])]
    simp only [hfn, reduceCtorEq, TokenKind.keyword.injEq, true_and, false_and, or_false] at hP
    exact pure ⟨.refl _, hP⟩
  · rw [if_pos (by simpa using hoverride)]
    simp only [hoverride, reduceCtorEq, TokenKind.keyword.injEq, true_and, false_and, false_or] at hP
    refine (require hr (by simp) hP).bind ?_
    rintro - r₃ - - ⟨rfl, -, hP⟩
    refine get.bind ?_
    rintro a r₄ - - ⟨rfl, rfl⟩
    exact pure ⟨later_advance _, hP⟩

theorem method (hr : r.Sound) (hk : r.current.kind = .keyword .fn ∨ r.current.kind = .keyword .override)
    (hP : P ↔ r.tokens ∈ Grammar.method * K) :
    Decides method r P fun _ r' => Later r.advance r' ∧ (P ↔ r'.tokens ∈ K) := by
  simp only [Grammar.method, mul_assoc] at hP
  rw [Reading.method]
  refine (methodHead hr hk hP).bind ?_
  rintro head r₁ h₁ - ⟨hadv, hP⟩
  have hr₁ := h₁.sound hr
  refine (require hr₁ (by simp) hP).bind ?_
  rintro - r₂ h₂ - ⟨rfl, hname, hP⟩
  have hr₂ := h₂.sound hr₁
  rw [← tokens_advance hr₂ (by simp [hname])] at hP
  refine get.bind ?_
  rintro a r₃ - - ⟨rfl, rfl⟩
  refine next.bind ?_
  rintro - r₄ h₄ - rfl
  have hr₄ := h₄.sound hr₂
  refine (typeParams hr₄ (by simp +contextual [Grammar.group, mul_assoc]) hP).bind ?_
  intro types r₅ h₅ _ hP
  have hr₅ := h₅.sound hr₄
  refine (group hr₅ (by simp) (by simp) hP).bind ?_
  rintro params r₆ h₆ - ⟨hparams, hP⟩
  have hr₆ := h₆.sound hr₅
  rw [← tokens_advance hr₆ (by simp [hparams])] at hP
  refine next.bind ?_
  rintro - r₇ h₇ - rfl
  have hr₇ := h₇.sound hr₆
  refine (fragmentTo hr₇ (by simp) hP).bind ?_
  rintro results r₈ h₈ - ⟨hbrace, hP⟩
  have hr₈ := h₈.sound hr₇
  rw [← tokens_advance hr₈ (by simp [hbrace])] at hP
  refine next.bind ?_
  rintro - r₉ h₉ - rfl
  have hr₉ := h₉.sound hr₈
  refine (fragmentTo hr₉ (by simp) hP).bind ?_
  rintro body r₁₀ h₁₀ - ⟨hclose, hP⟩
  rw [← tokens_advance (h₁₀.sound hr₉) (by simp [hclose])] at hP
  refine next.bind ?_
  rintro - r₁₁ h₁₁ - rfl
  exact pure ⟨hadv.trans (h₄.trans (h₅.trans (h₆.trans (h₇.trans (h₈.trans (h₉.trans (h₁₀.trans h₁₁))))))), hP⟩

theorem member (d : MeaningDecl) (hr : r.Sound) (hP : P ↔ r.tokens ∈ Grammar.member (Written r.source) * K) :
    Decides (member d) r P fun _ r' => Later r.advance r' ∧ (P ↔ r'.tokens ∈ K) := by
  rw [tokens_eq, cons_mem_member_mul, ← tokens_eq] at hP
  rw [Reading.member]
  refine get.bind ?_
  rintro a r₁ - - ⟨rfl, rfl⟩
  split
  · rename_i hk
    refine (field hr hk (by simpa [hk] using hP)).bind ?_
    intro _ r₂ _ _ h
    exact pure h
  · rename_i hk
    refine (constructor hr hk (by simpa [hk] using hP)).bind ?_
    intro _ r₂ _ _ h
    exact pure h
  · rename_i hk
    refine (method hr (.inl hk) (by simpa [hk] using hP)).bind ?_
    intro _ r₂ _ _ h
    exact pure h
  · rename_i hk
    refine (method hr (.inr hk) (by simpa [hk] using hP)).bind ?_
    intro _ r₂ _ _ h
    exact pure h
  · rename_i hk
    refine next.bind ?_
    rintro - r₂ - - rfl
    refine pure ⟨.refl _, ?_⟩
    rw [tokens_advance hr (by simp [hk])]
    simpa [hk] using hP
  · rename_i hlet hconstructor hfn hoverride hsemi
    refine refuse fun hp => ?_
    rcases hP.1 hp with h | h | h | h
    · exact hsemi h.1
    · exact hlet h.1
    · exact hconstructor h.1
    · exact h.1.elim hfn hoverride

theorem openBrace {d : MeaningDecl} (hr : r.Sound) (hP : P ↔ r.following ∈ one .lbrace * K) :
    Decides (Reading.require .lbrace >>= fun _ => Reading.next >>= fun _ => Pure.pure d) r P fun _ r' =>
      Later r.advance r' ∧ (P ↔ r'.tokens ∈ K) := by
  refine (require hr (by simp) hP).bind ?_
  rintro - r₁ h₁ - ⟨rfl, hbrace, hP⟩
  rw [← tokens_advance (h₁.sound hr) (by simp [hbrace])] at hP
  refine next.bind ?_
  rintro - r₂ h₂ - rfl
  exact pure ⟨h₂, hP⟩

theorem meaningHead (hr : r.Sound)
    (hP : P ↔ r.following ∈ one .ident * (optional (one .colon * one .ident) * (one .lbrace * K))) :
    Decides meaningHead r P fun _ r' => Later r.advance r' ∧ (P ↔ r'.tokens ∈ K) := by
  rw [Reading.meaningHead]
  refine get.bind ?_
  rintro a r₁ - - ⟨rfl, rfl⟩
  refine (require hr (by simp) hP).bind ?_
  rintro - r₂ h₂ - ⟨rfl, -, hP⟩
  have hr₂ := h₂.sound hr
  rw [mem_optional_mul, mul_assoc] at hP
  refine get.bind ?_
  rintro a r₃ - - ⟨rfl, rfl⟩
  refine (before? _).bind ?_
  rintro b r₄ - - ⟨rfl, rfl⟩
  dsimp only
  by_cases hcolon : r₁.advance.upcoming.kind = .colon
  · rw [if_pos (by simpa using hcolon)]
    rw [following_eq hr₂ (by simp [hcolon]), cons_mem_one_mul, cons_mem_one_mul, and_iff_right hcolon,
      or_iff_right fun h => absurd (h.1.symm.trans hcolon) (by simp)] at hP
    refine next.bind ?_
    rintro - r₅ h₅ - rfl
    have hr₅ := h₅.sound hr₂
    refine (require hr₅ (by simp) hP).bind ?_
    rintro - r₆ h₆ - ⟨rfl, -, hP⟩
    refine get.bind ?_
    rintro a r₇ - - ⟨rfl, rfl⟩
    refine (openBrace (h₆.sound hr₅) hP).mono ?_
    rintro - r' - ⟨h, hP⟩
    exact ⟨h₅.trans (h₆.trans ((later_advance _).trans h)), hP⟩
  · rw [if_neg (by simpa using hcolon)]
    rw [or_iff_left fun h => hcolon (upcoming_kind h)] at hP
    refine (openBrace hr₂ hP).mono ?_
    rintro - r' - ⟨h, hP⟩
    exact ⟨(later_advance _).trans h, hP⟩

theorem importPath {spec : Reader → ImportDecl} (hr : r.Sound) (hP : P ↔ r.tokens ∈ one .string * K) :
    Decides (MonadState.get >>= fun s => if s.current.kind = .string then Reading.next >>= fun _ => Pure.pure (spec s)
      else Reading.refuse s.current (.expected .string s.current)) r P fun _ r' =>
        r' = r.advance ∧ (P ↔ r'.tokens ∈ K) := by
  rw [tokens_eq, cons_mem_one_mul] at hP
  refine get.bind ?_
  rintro a r₁ - - ⟨rfl, rfl⟩
  by_cases hstring : r₁.current.kind = .string
  · rw [if_pos hstring]
    rw [and_iff_right hstring, ← tokens_advance hr (by simp [hstring])] at hP
    refine next.bind ?_
    rintro - r₂ - - rfl
    exact pure ⟨rfl, hP⟩
  · rw [if_neg hstring]
    exact refuse fun hp => hstring (hP.1 hp).1

theorem importSpec (hr : r.Sound) (hP : P ↔ r.tokens ∈ spec * K) :
    Decides importSpec r P fun _ r' => Later r.advance r' ∧ (P ↔ r'.tokens ∈ K) := by
  rw [spec, mul_assoc, mem_optional_mul, mem_add_mul, tokens_eq] at hP
  rw [cons_mem_one_mul, cons_mem_one_mul, cons_mem_one_mul, ← or_and_right] at hP
  rw [Reading.importSpec]
  refine get.bind ?_
  rintro a r₁ - - ⟨rfl, rfl⟩
  refine (at? _).bind ?_
  rintro b r₂ - - ⟨rfl, rfl⟩
  refine (at? _).bind ?_
  rintro b r₃ - - ⟨rfl, rfl⟩
  dsimp only
  by_cases hname : r₃.current.kind = .ident ∨ r₃.current.kind = .dot
  · rw [if_pos (by simpa using hname)]
    have hkinds : r₃.current.kind ≠ .string ∧ r₃.current.kind ≠ .eof := by
      rcases hname with h | h
      · simp [h]
      · simp [h]
    rw [or_iff_right fun h => hkinds.1 h.1, and_iff_right hname, ← tokens_advance hr hkinds.2] at hP
    refine get.bind ?_
    rintro a r₄ - - ⟨rfl, rfl⟩
    refine next.bind ?_
    rintro - r₅ h₅ - rfl
    refine (importPath (h₅.sound hr) hP).mono ?_
    rintro - r' h ⟨-, hP⟩
    exact ⟨h, hP⟩
  · rw [if_neg (by simpa using hname)]
    rw [or_iff_left fun h => hname h.1, ← cons_mem_one_mul, ← tokens_eq] at hP
    refine (importPath hr hP).mono ?_
    rintro - r' - ⟨rfl, hP⟩
    exact ⟨.refl _, hP⟩

theorem named (hr : r.Sound) (hP : P ↔ r.following ∈ one .ident * K) :
    Decides named r P fun _ r' => r' = r.advance ∧ r'.current.kind = .ident ∧ (P ↔ r'.following ∈ K) := by
  rw [Reading.named]
  refine (require hr (by simp) hP).bind ?_
  rintro - r₁ - - h
  refine get.bind ?_
  rintro a r₂ - - ⟨rfl, rfl⟩
  exact pure h

end Reading.Decides

end MeaningForest

import MeaningForest.Host.Signature
import MeaningForest.Proofs.Groups
import MeaningForest.Proofs.HostTokens

/-!
# Fragments that are complete

A parameter list is read between the brackets of a function type, and type parameters between those of a function.  The
fragment that stands there may close the bracket itself and open another one.

* `Host.complete_iff`: what was accepted closes no bracket but its own exactly if nothing follows the parameters in what
  was read, and the fragment does not hide the bracket behind it in a comment.  It is then a list by itself.
* `Host.fragments_escape`: fragments that are no lists and are accepted.
-/

namespace MeaningForest

namespace Host

/-- Whether the brackets that a text closes are its own. -/
def Closed (s : Text) : Prop := ((tokens? ("(" ++ s)).bind fun ts => unclosed [] (ts.drop 1)).isSome

instance (s : Text) : Decidable (Closed s) := inferInstanceAs (Decidable (_ = _))

/-- Whether a text ends in a comment that takes in a bracket behind it. -/
def Swallows (s : Text) : Prop := tokens? ("(" ++ s ++ ")") = tokens? ("(" ++ s)

instance (s : Text) : Decidable (Swallows s) := inferInstanceAs (Decidable (_ = _))

/-- A text that is a parameter list by itself: the rule takes it and a bracket on each side. -/
def IsParams (s : Text) (fields : List Field) : Prop := ∃ n source rest,
  tokens? ("(" ++ s ++ ")") = some source.tokens ∧ (Rules.ofDepth n).params true source = some (fields, rest) ∧
    rest.tokens = [.semicolon false]

/-- A text that is a type parameter list by itself: the rule takes it and a bracket on each side, and leaves the rest of
the declaration. -/
def IsTypeParams (s : Text) (fields : List Field) : Prop := ∃ n source rest,
  tokens? ("[" ++ s ++ "]() \x7b\x7d\n") = some source.tokens ∧
    (Rules.ofDepth n).typeParams source = some (fields, rest) ∧
    rest.tokens = [.lparen, .rparen, .lbrace, .rbrace, .semicolon false]

/-! ### The bracket that closes a group -/

variable {inner us ts vs : List Token} {k : Token}

/-- A closing bracket after a group is the one of the frame if the fragment closes its own brackets only. -/
theorem eq_of_unclosed (hk : k.after [] = none) (hinner : unclosed [] inner = some []) (hts : (unclosed [] ts).isSome)
    (hvs : k ∉ vs) (h : inner ++ k :: us = ts ++ k :: vs) : inner = ts ∧ us = vs := by
  rcases List.append_eq_append_iff.1 h with ⟨ws, rfl, hws⟩ | ⟨ws, rfl, hws⟩
  · cases ws with
    | nil => exact ⟨(List.append_nil _).symm, (List.cons.inj hws).2⟩
    | cons w ws =>
      obtain ⟨rfl, -⟩ := List.cons.inj hws
      rw [unclosed_append, hinner, Option.bind_some, unclosed_cons, hk] at hts
      cases hts
  · cases ws with
    | nil => exact ⟨List.append_nil _, (List.cons.inj hws).2.symm⟩
    | cons w ws =>
      obtain ⟨-, rfl⟩ := List.cons.inj hws
      exact absurd (by simp) hvs

theorem unclosed_ends {o : Bool} : unclosed [] (ts ++ ends o) = unclosed [] ts := by
  rw [unclosed_append]
  cases o <;> cases unclosed [] ts <;> rfl

variable {s : Text}

/-- A fragment in a frame that was read as a group in the brackets of the frame. -/
theorem closed_iff_of_group {o : Bool} (hk : k.after [] = none) (hvs : k ∉ vs) (hinner : unclosed [] inner = some [])
    (hclosed : Closed s ↔ (unclosed [] ts).isSome)
    (hcut : Swallows s ∧ inner ++ k :: us = ts ++ ends o ∨ ¬Swallows s ∧ inner ++ k :: us = ts ++ k :: vs) :
    (Closed s ↔ us.length = vs.length ∧ ¬Swallows s) ∧ (Closed s → us = vs) := by
  rcases hcut with ⟨hswallows, hcut⟩ | ⟨hswallows, hcut⟩
  · -- the bracket that closes the group stands in the fragment
    have hgroup : unclosed [] (inner ++ k :: us) = none := by
      rw [unclosed_append, hinner, Option.bind_some, unclosed_cons, hk]
      rfl
    have hopen : ¬Closed s := by
      rw [hclosed, ← unclosed_ends, ← hcut, hgroup]
      exact Bool.false_ne_true
    exact ⟨⟨fun h => absurd h hopen, fun h => absurd hswallows h.2⟩, fun h => absurd h hopen⟩
  · have hrest : Closed s → us = vs := fun h => (eq_of_unclosed hk hinner (hclosed.1 h) hvs hcut).2
    refine ⟨⟨fun h => ⟨congrArg List.length (hrest h), hswallows⟩, fun ⟨hlength, _⟩ => ?_⟩, hrest⟩
    obtain ⟨rfl, -⟩ := List.append_inj' hcut (by simpa using hlength)
    rw [hclosed, hinner]
    rfl

/-! ### Fragments in their frames -/

variable {opening closing : Text} {before X : List Token} {after : Bool → List Token}

/-- The tokens of a fragment, and what follows them in a frame and in others. -/
theorem Frame.exists_cut (h : Frame opening closing before after) (hne : closing ≠ [])
    (hX : tokens? (opening ++ s ++ closing) = some X) :
    ∃ ts o, (Closed s ↔ (unclosed [] ts).isSome) ∧
      (Swallows s ∧ X = before ++ (ts ++ ends o) ∨ ¬Swallows s ∧ X = before ++ (ts ++ after o)) ∧
      (¬Swallows s → ∀ {opening' closing' : Text} {before' : List Token} {after' : Bool → List Token},
        Frame opening' closing' before' after' →
          tokens? (opening' ++ s ++ closing') = some (before' ++ (ts ++ after' o))) := by
  obtain ⟨hs, ts, o, swallows, hleaves⟩ := h.exists_leaves hne hX
  have hopen : tokens? ("(" ++ s) = some (.lparen :: (ts ++ ends o)) := by
    have hframe := frame_open.tokens?_eq hs hleaves
    rwa [List.append_nil, ite_self] at hframe
  have hbrackets := frame_brackets.tokens?_eq hs hleaves
  have hframe := h.tokens?_eq hs hleaves
  have hswallows : Swallows s ↔ swallows = true := by
    rw [Swallows, hopen]
    cases swallows with
    | true => exact ⟨fun _ => rfl, fun _ => hbrackets⟩
    | false =>
      refine ⟨fun h => ?_, fun h => nomatch h⟩
      have hlength := congrArg List.length (Option.some.inj (hbrackets.symm.trans h))
      cases o <;> simp [ends] at hlength
  refine ⟨ts, o, ?_, ?_, fun hnot {_ _ _ _} h' => ?_⟩
  · rw [Closed, hopen, Option.bind_some, List.drop_succ_cons, List.drop_zero, unclosed_ends]
  · rw [hswallows]
    cases swallows with
    | true => exact .inl ⟨rfl, Option.some.inj (hX.symm.trans hframe)⟩
    | false => exact .inr ⟨Bool.false_ne_true, Option.some.inj (hX.symm.trans hframe)⟩
  · obtain rfl : swallows = false := Bool.eq_false_iff.2 fun htrue => hnot (hswallows.2 htrue)
    exact h'.tokens?_eq hs hleaves

/-- What is read as a function type are parameters, and then results if there are any. -/
theorem exists_params {fields : List Field} {results : Option (List Field)}
    (h : parseExpr? ("func(" ++ s ++ ")") = some (.func fields results)) :
    ∃ n ts s₁ s₂, tokens? ("func(" ++ s ++ ")") = some (.keyword "func" :: ts) ∧
      (Rules.ofDepth (n + 1)).params true { tokens := ts } = some (fields, s₁) ∧
      (Rules.ofDepth (n + 1)).results s₁ = some (results, s₂) ∧ (s₂.tokens = [] ∨ s₂.tokens = [.semicolon false]) := by
  obtain ⟨X, hX, -⟩ := unclosed_of_parseExpr? h
  obtain ⟨ts, o, -, hcut, -⟩ := frame_params.exists_cut (by decide) hX
  obtain ⟨Y, rfl⟩ : ∃ Y, X = .keyword "func" :: Y := by
    rcases hcut with ⟨-, rfl⟩ | ⟨-, rfl⟩ <;> exact ⟨_, rfl⟩
  obtain ⟨n, s₂, hsignature, hend⟩ := exists_signature hX h
  obtain ⟨ps, s₁, hparams, hrest⟩ := Parse.bind_eq_some.1 hsignature
  obtain ⟨rs, s₃, hresults, hpure⟩ := Parse.bind_eq_some.1 hrest
  obtain ⟨hpair, rfl⟩ := Parse.pure_eq_some.1 hpure
  obtain ⟨rfl, rfl⟩ := Prod.mk.inj hpair
  exact ⟨n, Y, s₁, s₃, hX, hparams, hresults, hend⟩

theorem params_closed_iff {fields : List Field} {results : Option (List Field)}
    (h : parseExpr? ("func(" ++ s ++ ")") = some (.func fields results)) :
    (Closed s ↔ results = none ∧ ¬Swallows s) ∧ (Closed s → IsParams s fields) := by
  obtain ⟨n, Y, s₁, s₃, hX, hparams, hresults, hend⟩ := exists_params h
  obtain ⟨ts, o, hclosed, hcut, hframes⟩ := frame_params.exists_cut (by decide) hX
  obtain ⟨inner, hinner, hgroup⟩ := (Rules.balanced_ofDepth _).exists_params hparams
  obtain rfl : Y = .lparen :: (inner ++ .rparen :: s₁.tokens) := hinner
  have hcut : Swallows s ∧ inner ++ .rparen :: s₁.tokens = ts ++ ends o ∨
      ¬Swallows s ∧ inner ++ .rparen :: s₁.tokens = ts ++ [.rparen, .semicolon false] := by simpa using hcut
  obtain ⟨hiff, hsemicolon⟩ := closed_iff_of_group rfl (by simp) hgroup hclosed hcut
  refine ⟨⟨fun h => ⟨?_, (hiff.1 h).2⟩, fun ⟨hnone, hswallows⟩ => hiff.2 ⟨?_, hswallows⟩⟩, fun h => ?_⟩
  · -- no type starts with the semicolon
    obtain ⟨tokens, level⟩ := s₁
    obtain rfl : tokens = _ := hsemicolon h
    exact (Prod.mk.inj (Option.some.inj (hresults.symm.trans (Rules.results_semicolon n false [] level)))).1
  · subst hnone
    obtain rfl := Rules.results_none hresults
    rcases hend with hend | hend
    · have hlast := congrArg List.getLast? (hcut.resolve_left fun h => hswallows h.1).2
      simp [hend] at hlast
    · rw [hend]
  · refine ⟨_, _, s₁, ?_, hparams, hsemicolon h⟩
    have hswallows := (hiff.1 h).2
    rw [hframes hswallows frame_brackets, ← (hcut.resolve_left fun h => hswallows h.1).2]
    rfl

theorem typeParams_closed_iff {f : File} (h : parseFile? ("package p\nfunc f[" ++ s ++ "]() \x7b\x7d\n") = some f) :
    ∃ fields ps rs body decls, f = ⟨"p", .func none "f" fields ps rs body :: decls⟩ ∧
      (Closed s ↔ (ps = [] ∧ rs = none ∧ body = some [] ∧ decls = []) ∧ ¬Swallows s) ∧
      (Closed s → IsTypeParams s fields) := by
  obtain ⟨X, hX, -⟩ := unclosed_of_parseFile? h
  obtain ⟨ts, o, hclosed, hcut, hframes⟩ := frame_typeParams.exists_cut (by decide) hX
  obtain ⟨Y, rfl⟩ : ∃ Y, X = .keyword "package" :: .ident "p" :: .semicolon false :: .keyword "func" :: .ident "f" ::
      .lbrack :: Y := by
    rcases hcut with ⟨-, rfl⟩ | ⟨-, rfl⟩ <;> exact ⟨_, rfl⟩
  obtain ⟨n, fields, s₀, s₁, ps, rs, body, decls, hs₀, hfields, rfl, hempty⟩ := exists_typeParams hX h
  obtain ⟨inner, hinner, hgroup⟩ := (Rules.balanced_ofDepth _).exists_typeParams hfields
  obtain rfl : Y = inner ++ .rbrack :: s₁.tokens := (List.cons.inj (hs₀.symm.trans hinner)).2
  have hcut : Swallows s ∧ inner ++ .rbrack :: s₁.tokens = ts ++ ends o ∨ ¬Swallows s ∧ inner ++ .rbrack :: s₁.tokens =
      ts ++ [.rbrack, .lparen, .rparen, .lbrace, .rbrace, .semicolon false] := by simpa using hcut
  obtain ⟨hiff, hrest⟩ := closed_iff_of_group rfl (by simp) hgroup hclosed hcut
  refine ⟨fields, ps, rs, body, decls, rfl, ?_, fun h => ?_⟩
  · rw [hempty]
    refine ⟨fun h => ⟨⟨_, hrest h⟩, (hiff.1 h).2⟩, ?_⟩
    rintro ⟨⟨written, htokens⟩, hswallows⟩
    exact hiff.2 ⟨by rw [htokens]; rfl, hswallows⟩
  · refine ⟨_, s₀, s₁, ?_, hfields, hrest h⟩
    have hswallows := (hiff.1 h).2
    rw [hframes hswallows frame_typeBrackets, ← (hcut.resolve_left fun h => hswallows h.1).2, hs₀]
    rfl

/-! ### What is accepted -/

/-- Accepted fragments that are not blank.  A parameter list closes its own brackets only, and then is one by itself,
exactly if no results follow the parameters in the function type that was read, and the fragment does not swallow the
bracket behind it; type parameters do exactly if the file that was read has one function, without parameters, results
and statements, and the same holds of the bracket. -/
theorem complete_iff {s : Text} (hs : s.isBlank = false) :
    (∀ sig, Signature.parse s = .ok sig → ∃ fields results,
      parseExpr? ("func(" ++ s ++ ")") = some (.func fields results) ∧ Signature.ofFields fields = .ok sig ∧
        (Closed s ↔ results = none ∧ ¬Swallows s) ∧ (Closed s → IsParams s fields)) ∧
    ∀ names, parseTypeParams s = .ok names → ∃ fields ps rs body decls,
      parseFile? ("package p\nfunc f[" ++ s ++ "]() \x7b\x7d\n") =
        some ⟨"p", .func none "f" fields ps rs body :: decls⟩ ∧
        fields ≠ [] ∧ names = fields.flatMap (·.names) ∧
        (Closed s ↔ (ps = [] ∧ rs = none ∧ body = some [] ∧ decls = []) ∧ ¬Swallows s) ∧
        (Closed s → IsTypeParams s fields) := by
  constructor
  · intro sig h
    rw [Signature.parse, hs, if_neg Bool.false_ne_true] at h
    split at h
    · cases h
    · rename_i fields results hparse
      exact ⟨fields, results, hparse, h, params_closed_iff hparse⟩
    · cases h
  · intro names h
    rw [parseTypeParams, hs, if_neg Bool.false_ne_true] at h
    cases hparse : parseFile? ("package p\nfunc f[" ++ s ++ "]() \x7b\x7d\n") with
    | none =>
      rw [hparse] at h
      cases h
    | some f =>
      rw [hparse] at h
      obtain ⟨fields, ps, rs, body, decls, rfl, hclosed⟩ := typeParams_closed_iff hparse
      dsimp only at h
      split at h
      · cases h
      · rename_i hfields
        exact ⟨fields, ps, rs, body, decls, rfl, fun h => hfields (h ▸ rfl), (Except.ok.inj h).symm, hclosed⟩

/-- Lists that are complete. -/
theorem complete_lists : (∃ fields sig, Signature.parse "a, b int, f ...func()" = .ok sig ∧
      Signature.ofFields fields = .ok sig ∧ IsParams "a, b int, f ...func()" fields) ∧
    ∃ fields names, parseTypeParams "T any, U []T" = .ok names ∧ names = fields.flatMap (·.names) ∧
      IsTypeParams "T any, U []T" fields := by
  obtain ⟨sig, hsig⟩ : ∃ sig, Signature.parse "a, b int, f ...func()" = .ok sig := ⟨⟨["a", "b", "f"],
    ["int", "int", "...func()"], true, false⟩, by decide +kernel⟩
  obtain ⟨fields, _, -, hfields, -, hparams⟩ := (complete_iff (by decide +kernel)).1 sig hsig
  have hnames : parseTypeParams "T any, U []T" = .ok ["T", "U"] := by decide +kernel
  obtain ⟨types, _, _, _, _, -, -, htypes, -, htypeParams⟩ := (complete_iff (by decide +kernel)).2 _ hnames
  exact ⟨⟨fields, sig, hsig, hfields, hparams (by decide +kernel)⟩,
    types, _, hnames, htypes, htypeParams (by decide +kernel)⟩

/-- Fragments that close the bracket before them: the first has parameters and results, the second hides the bracket
behind it, and the third declares another function. -/
theorem fragments_escape :
    (Signature.parse "a int) (b int" = .ok { names := ["a"], types := ["int"] } ∧ ¬Closed "a int) (b int") ∧
    (Signature.parse "a int) //" = .ok { names := ["a"], types := ["int"] } ∧ ¬Closed "a int) //") ∧
    parseTypeParams "T any]() \x7b\x7d; func g[U any" = .ok ["T"] ∧ ¬Closed "T any]() \x7b\x7d; func g[U any" := by
  decide +kernel

end Host

end MeaningForest

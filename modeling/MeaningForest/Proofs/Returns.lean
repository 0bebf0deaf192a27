import MeaningForest.Proofs.Accounting
import MeaningForest.Proofs.Groups
import MeaningForest.Proofs.HostTokens

/-!
# What calls of overrides hand on

The code that calls an override returns what the override returns, if the method has results.  Whether it has any is
told twice: the types of the results are read from their list, and the code looks whether the text of the list is blank.

* `Host.parseResults_nil_iff`: a text that is not blank has no results exactly if it is an empty list in parentheses.
* `Analysis.exists_suits_iff`: the code of an override suits the results of the method unless these are written so.
* `Analysis.replies_unsuited`: a method with such a list, the code of whose override returns a call without a value.
-/

namespace MeaningForest

variable {lang : Language}

namespace Host

/-- Results that are written as an empty list in parentheses. -/
def EmptyResults (results : Text) : Prop :=
  results.isBlank = false ∧
    tokens? ("func()" ++ results) = some [.keyword "func", .lparen, .rparen, .lparen, .rparen, .semicolon false]

instance (results : Text) : Decidable (EmptyResults results) := inferInstanceAs (Decidable (_ ∧ _))

theorem tokens?_results {results : Text} {ts : List Token} (h : tokens? ("func()" ++ results) = some ts) :
    ∃ us, ts = .keyword "func" :: .lparen :: .rparen :: us := by
  rw [tokens?] at h
  split at h
  · obtain ⟨us, -, rfl⟩ := Option.map_eq_some_iff.1 ((lex_results results).symm.trans h)
    exact ⟨us, rfl⟩
  · cases h

/-- The results of a function type without parameters. -/
theorem results_nil_iff {results : Text} {ps fields : List Field}
    (h : parseExpr? ("func()" ++ results) = some (.func ps (some fields))) :
    fields = [] ↔
      tokens? ("func()" ++ results) = some [.keyword "func", .lparen, .rparen, .lparen, .rparen, .semicolon false] := by
  obtain ⟨ts, hts, -⟩ := unclosed_of_parseExpr? h
  obtain ⟨us, rfl⟩ := tokens?_results hts
  obtain ⟨n, s, hsignature, hend⟩ := exists_signature hts h
  obtain ⟨ps', s₁, hparams, hrest⟩ := Parse.bind_eq_some.1 hsignature
  obtain ⟨-, rfl⟩ := Prod.mk.inj (Option.some.inj ((Rules.params_empty true us 0).symm.trans hparams))
  obtain ⟨rs, s₂, hresults, hpure⟩ := Parse.bind_eq_some.1 hrest
  obtain ⟨hpair, rfl⟩ := Parse.pure_eq_some.1 hpure
  obtain ⟨-, rfl⟩ := Prod.mk.inj hpair
  rw [hts]
  constructor
  · rintro rfl
    obtain rfl : us = .lparen :: .rparen :: s₂.tokens := Rules.results_nil hresults
    rcases hend with hend | hend
    · -- the end of the text would have closed the line
      rw [hend] at hts
      cases tokens?_ends [.keyword "func", .lparen, .rparen, .lparen] hts
    · rw [hend]
  · intro htokens
    obtain rfl : us = [.lparen, .rparen, .semicolon false] := by simpa using htokens
    exact Option.some.inj (Prod.mk.inj (Option.some.inj (hresults.symm.trans (Rules.results_empty _ 0)))).1

end Host

/-- No types are read from results exactly if the text is blank or an empty list. -/
theorem parseResults_nil_iff {results : Text} {types : List Text} (h : parseResults results = .ok types) :
    types = [] ↔ results.isBlank ∨ Host.EmptyResults results := by
  rw [parseResults] at h
  split at h
  · rename_i hblank
    obtain rfl := Except.ok.inj h
    exact ⟨fun _ => .inl hblank, fun _ => rfl⟩
  · rename_i hblank
    split at h
    · cases h
    · rename_i ps fields hparse
      obtain rfl := Except.ok.inj h
      have hfields : (fields.flatMap fun f => List.replicate (max f.names.length 1) f.type.render) = [] ↔
        fields = [] := by
        cases fields with
        | nil => simp
        | cons f fields => simp
      rw [hfields, Host.results_nil_iff hparse, Host.EmptyResults]
      simp [hblank]
    · cases h

/-! ### Calls -/

namespace OverrideCall

/-- The call itself. -/
def expression (c : OverrideCall) : Text :=
  c.receiver ++ "." ++ overrideName c.meaning c.method ++ "(" ++ c.arguments ++ ")"

/-- The code hands on a value exactly if there are results, and is the call and a bare return otherwise. -/
def Suits (c : OverrideCall) (types : List Text) : Prop :=
  (c.text = "return " ++ c.expression ↔ types ≠ []) ∧ (types = [] → c.text = c.expression ++ "\nreturn")

theorem text_eq (c : OverrideCall) :
    c.text = if c.hasResults then "return " ++ c.expression else c.expression ++ "\nreturn" := rfl

theorem return_ne (x : Text) : ("return " ++ x : Text) ≠ x ++ "\nreturn" := by
  intro h
  -- only one of the two has a line feed of its own
  have hcount := congrArg (List.count 0x0a) h
  rw [List.count_append, List.count_append] at hcount
  have hfirst : List.count 0x0a (Text.ofString "return ") = 0 := by decide
  have hlast : List.count 0x0a (Text.ofString "\nreturn") = 1 := by decide
  omega

theorem suits_iff (c : OverrideCall) (types : List Text) : c.Suits types ↔ (c.hasResults = true ↔ types ≠ []) := by
  rw [Suits, text_eq]
  cases c.hasResults with
  | true =>
    have hne : ("return " ++ c.expression : Text) ≠ c.expression ++ "\nreturn" := return_ne _
    by_cases htypes : types = [] <;> simp [htypes, hne]
  | false =>
    have hne : (c.expression ++ "\nreturn" : Text) ≠ "return " ++ c.expression := (return_ne _).symm
    by_cases htypes : types = [] <;> simp [htypes, hne]

end OverrideCall

namespace Analysis

variable {a : Analysis} {settings : Settings}

/-- The code that the table has for an override of a method. -/
def Recording.Registers (r : Recording) (o : Override) (code : Text) : Prop := ∃ d s h,
  r.table.meaning (r.symbol o.base.owner) = .ok d ∧ d.methods.get? o.base.name = some s ∧ r.table.method s = .ok h ∧
    h.mapping.codeAt (o.path.map r.symbol) = some code

theorem Registered.registers {r : Recording} (h : a.Registered r) (ha : a.Complete) {p : Profile} (hp : p ∈ a.profiles)
    {o : Override} (ho : o ∈ p.overrides) : r.Registers o o.call.text := by
  obtain ⟨q, hq, hbase, howner, -⟩ := ha.override_spec hp ho
  obtain ⟨d, hd, -, -, -, hmethods⟩ := h.members q hq
  obtain ⟨s, slot, hs, hslot, -, -, hcode⟩ := hmethods o.base hbase
  exact ⟨d, s, slot, howner ▸ hd, hs, hslot, hcode p hp o ho rfl⟩

/-- The base of an override is declared as a method, and its results are those that are read from the declaration. -/
theorem Complete.base_declared (ha : a.Complete) (hclean : a.findings = []) {p : Profile} (hp : p ∈ a.profiles)
    {o : Override} (ho : o ∈ p.overrides) : ∃ b ∈ a.file.meanings, ∃ g ∈ b.methods, g.isOverride = false ∧
      g.name = o.decl.name ∧ o.base.decl = g ∧ parseResults g.results = .ok o.base.results := by
  obtain ⟨q, hq, hbase, -, hname, -⟩ := ha.override_spec hp ho
  obtain ⟨hdecl, -, hmethods, -⟩ := ha.profile_clean hclean hq
  obtain ⟨asc, us, -, hchain⟩ := ha.exists_chain_of_mem hq
  obtain ⟨-, -, -, -, hresults⟩ := Profile.readMethod_ok ((hchain.consistent rfl).methods_read o.base hbase)
  have hmem : o.base.decl ∈ q.decl.methods.filter (!·.isOverride) := hmethods ▸ List.mem_map_of_mem hbase
  obtain ⟨hmem, hkind⟩ := List.mem_filter.1 hmem
  exact ⟨q.decl, hdecl, _, hmem, by simpa using hkind, hname, rfl, hresults⟩

/-- The code of overrides.  Every override that is declared has a base method, the results of which can be read, and the
code that is registered for it suits these exactly if they are not written as an empty list in parentheses. -/
theorem exists_suits_iff {file : DeclFile} (h : ofFile settings file = .ok a) (hclean : a.findings = []) :
    ∀ d ∈ file.meanings, ∀ m ∈ d.methods, m.isOverride = true →
      ∃ p ∈ a.profiles, ∃ o ∈ p.overrides, p.decl = d ∧ o.decl = m ∧
        (∃ b ∈ file.meanings, ∃ g ∈ b.methods, g.isOverride = false ∧ g.name = m.name ∧ o.base.decl = g ∧
          ∃ types, parseResults g.results = .ok types ∧ (o.call.Suits types ↔ ¬Host.EmptyResults g.results)) ∧
        (a.symbolCount ≤ 4294967296 → ∀ t, ∃ r, a.record t = .ok r ∧ r.Registers o o.call.text) := by
  obtain ⟨ha, rfl⟩ := complete_of_ofFile h
  intro d hd m hm hkind
  obtain ⟨p, hp, rfl⟩ := ha.exists_profile_of_decl hclean hd
  obtain ⟨-, -, -, hoverrides⟩ := ha.profile_clean hclean hp
  obtain ⟨o, ho, rfl⟩ : ∃ o ∈ p.overrides, o.decl = m :=
    List.mem_map.1 (hoverrides ▸ List.mem_filter.2 ⟨hm, hkind⟩)
  obtain ⟨b, hb, g, hg, hbase, hname, rfl, hresults⟩ := ha.base_declared hclean hp ho
  refine ⟨p, hp, o, ho, rfl, rfl, ⟨b, hb, _, hg, hbase, hname, rfl, _, hresults, ?_⟩, fun hcount t => ?_⟩
  · have hblank : o.call.hasResults = !o.base.decl.results.isBlank := rfl
    rw [OverrideCall.suits_iff, Ne, parseResults_nil_iff hresults, hblank]
    by_cases hempty : Host.EmptyResults o.base.decl.results
    · simp [hempty, hempty.1]
    · simp [hempty]
  · obtain ⟨r, hr, hregistered⟩ := ha.exists_registered t hcount
    exact ⟨r, hr, hregistered.registers ha hp ho⟩

/-- Methods with a result, without results and with an empty list of them, and a meaning that overrides all. -/
def replies : DeclFile :=
  let method (line : Nat) (name results : Text) (isOverride : Bool) : MethodDecl :=
    { position := ⟨line, if isOverride then 14 else 5⟩, name, isOverride, doc := [], typeParams := [], params := []
      results, body := [] }
  let meaning (line : Nat) (name parent : Text) (methods : List MethodDecl) : MeaningDecl :=
    { position := ⟨line, 1⟩, name, parent, parentPosition := if parent.isEmpty then ⟨0, 0⟩ else ⟨line, 12⟩, doc := []
      fields := [], constructors := [], methods }
  { name := "a.mt"
    meanings :=
      [meaning 1 "A" [] [method 2 "size" "int" false, method 3 "clear" "" false, method 4 "f" "()" false],
        meaning 6 "B" "A" [method 7 "size" "int" true, method 8 "clear" "" true, method 9 "f" "()" true]] }

theorem replies_suit : ∃ a, @ofFile .english {} replies = .ok a ∧ a.findings = [] ∧
    (∃ p ∈ a.profiles, ∃ o ∈ p.overrides, o.decl.name = "size" ∧ o.call.Suits ["int"]) ∧
    ∃ p ∈ a.profiles, ∃ o ∈ p.overrides, o.decl.name = "clear" ∧ o.call.Suits [] := by
  obtain ⟨a, ha, hclean⟩ := exists_clean (by decide +kernel : @cleanInOrder .english {} replies)
  have hsuits := exists_suits_iff ha hclean
  obtain ⟨d, hd, m, hm, hkind, hname⟩ : ∃ d ∈ replies.meanings, ∃ m ∈ d.methods, m.isOverride = true ∧
      m.name = "size" := by decide +kernel
  obtain ⟨d', hd', m', hm', hkind', hname'⟩ : ∃ d ∈ replies.meanings, ∃ m ∈ d.methods, m.isOverride = true ∧
      m.name = "clear" := by decide +kernel
  have hbases : ∀ b ∈ replies.meanings, ∀ g ∈ b.methods, (g.name = "size" → parseResults g.results = .ok ["int"] ∧
      ¬Host.EmptyResults g.results) ∧ (g.name = "clear" → parseResults g.results = .ok [] ∧
      ¬Host.EmptyResults g.results) := by decide +kernel
  obtain ⟨p, hp, o, ho, -, rfl, ⟨b, hb, g, hg, -, hsame, -, types, htypes, hiff⟩, -⟩ := hsuits d hd m hm hkind
  obtain ⟨p', hp', o', ho', -, rfl, ⟨b', hb', g', hg', -, hsame', -, types', htypes', hiff'⟩, -⟩ :=
    hsuits d' hd' m' hm' hkind'
  obtain ⟨hint, hempty⟩ := (hbases b hb g hg).1 (hsame.trans hname)
  obtain ⟨hnone, hempty'⟩ := (hbases b' hb' g' hg').2 (hsame'.trans hname')
  obtain rfl := Except.ok.inj (hint.symm.trans htypes)
  obtain rfl := Except.ok.inj (hnone.symm.trans htypes')
  exact ⟨a, ha, hclean, ⟨p, hp, o, ho, hname, hiff.2 hempty⟩, p', hp', o', ho', hname', hiff'.2 hempty'⟩

/-- The method whose results are `()` has none, and the code of its override hands on a value. -/
theorem replies_unsuited : ∃ a, @ofFile .english {} replies = .ok a ∧ a.findings = [] ∧
    ∃ p ∈ a.profiles, ∃ o ∈ p.overrides, o.decl.name = "f" ∧ parseResults o.base.decl.results = .ok [] ∧
      o.call.text = "return " ++ o.call.expression ∧ ¬o.call.Suits [] := by
  obtain ⟨a, hfile, hclean⟩ := exists_clean (by decide +kernel : @cleanInOrder .english {} replies)
  obtain ⟨ha, hdecls⟩ := complete_of_ofFile hfile
  obtain ⟨d, hd, m, hm, hname⟩ : ∃ d ∈ replies.meanings, ∃ m ∈ d.methods.filter (·.isOverride), m.name = "f" := by
    decide +kernel
  obtain ⟨p, hp, rfl⟩ : ∃ p ∈ a.profiles, p.decl = d := ha.exists_profile_of_decl hclean (hdecls ▸ hd)
  obtain ⟨-, -, -, hoverrides⟩ := ha.profile_clean hclean hp
  obtain ⟨o, ho, rfl⟩ : ∃ o ∈ p.overrides, o.decl = m := List.mem_map.1 (hoverrides ▸ hm)
  obtain ⟨b, hb, g, hg, -, hsame, rfl, hresults⟩ := ha.base_declared hclean hp ho
  have hbase : o.base.decl.results = "()" := by
    have hf : ∀ b ∈ replies.meanings, ∀ g ∈ b.methods, g.name = "f" → g.results = "()" := by decide +kernel
    exact hf b (hdecls ▸ hb) _ hg (hsame.trans hname)
  have hreturns : o.call.hasResults = true := by
    change (!o.base.decl.results.isBlank) = true
    rw [hbase]
    decide +kernel
  have hnone : parseResults "()" = .ok [] := by decide +kernel
  refine ⟨a, hfile, hclean, p, hp, o, ho, hname, hbase ▸ hnone, ?_, ?_⟩
  · rw [OverrideCall.text_eq, if_pos hreturns]
  · rw [OverrideCall.suits_iff, hreturns]
    simp

end Analysis

end MeaningForest

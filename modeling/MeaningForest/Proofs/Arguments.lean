import MeaningForest.Code.Constructor
import MeaningForest.Proofs.Captured
import MeaningForest.Proofs.Parameters

/-!
# Arguments of calls

The arguments of a call are read between its parentheses.

* `readArguments?_namesText`: names with commas between them are read as these arguments, in order, and the last one is
  spread exactly if the text ends in dots (`dots_suffix_namesText`).
* `Signature.args_eq`, `Signature.andMore_args_eq`: what a signature forwards is written so, also behind a handle.
-/

namespace MeaningForest

/-- Reads the arguments of a call, and whether the last one is spread. -/
def readArguments? (arguments : Text) : Option (List Host.Expr × Bool) :=
  match Host.parseExpr? ("f(" ++ arguments ++ ")") with
  | some (.call _ args spread) => some (args, spread)
  | _ => none

namespace Host

open Text

/-! ### Names with commas -/

/-- White space starts no word. -/
theorem spaceLength_of_start {b : UInt8} {t : Text} (h : isWordStart (decode b t).scalar = true) :
    spaceLength (b :: t) = 0 := by
  have hnone : ∀ {c : Nat}, (decode b t).scalar = c → isWordStart c = false → False := fun hc hstart => by
    rw [hc, hstart] at h
    cases h
  unfold spaceLength
  split
  · rename_i heq
    obtain ⟨rfl, rfl⟩ := List.cons.inj heq
    exact (hnone (c := 0x85) rfl (by decide +kernel)).elim
  · rename_i heq
    obtain ⟨rfl, rfl⟩ := List.cons.inj heq
    exact (hnone (c := 0xa0) rfl (by decide +kernel)).elim
  · rename_i heq
    obtain ⟨rfl, rfl⟩ := List.cons.inj heq
    exact (hnone (c := 0x1680) rfl (by decide +kernel)).elim
  · rename_i c _ heq
    obtain ⟨rfl, rfl⟩ := List.cons.inj heq
    refine if_neg fun hc => ?_
    have hspaces : ∀ n ∈ List.range 256, (0x80 ≤ UInt8.ofNat n ∧ UInt8.ofNat n ≤ 0x8a) ∨ UInt8.ofNat n = 0xa8 ∨
        UInt8.ofNat n = 0xa9 ∨ UInt8.ofNat n = 0xaf →
          isWordStart (decode 0xe2 [0x80, UInt8.ofNat n]).scalar = false := by decide +kernel
    have hspace := hspaces c.toNat (List.mem_range.2 c.toNat_lt)
    rw [UInt8.ofNat_toNat] at hspace
    exact hnone rfl (hspace hc)
  · rename_i heq
    obtain ⟨rfl, rfl⟩ := List.cons.inj heq
    exact (hnone (c := 0x205f) rfl (by decide +kernel)).elim
  · rename_i heq
    obtain ⟨rfl, rfl⟩ := List.cons.inj heq
    exact (hnone (c := 0x3000) rfl (by decide +kernel)).elim
  · rename_i heq
    obtain ⟨rfl, rfl⟩ := List.cons.inj heq
    refine if_neg fun hb => ?_
    have hspaces : ∀ n ∈ List.range 256, isAsciiSpace (UInt8.ofNat n) = true →
        UInt8.ofNat n < 0x80 ∧ isWordStart (UInt8.ofNat n).toNat = false := by decide +kernel
    have hspace := hspaces b.toNat (List.mem_range.2 b.toNat_lt)
    rw [UInt8.ofNat_toNat] at hspace
    exact not_isWordStart_of_ascii (hspace hb).1 (hspace hb).2 t h
  · rfl

/-- Names with commas between them, and three dots behind the last one if it is spread. -/
def namesText (spread : Bool) (names : List Text) : Text :=
  join ", " names ++ if spread then Text.ofString "..." else []

/-- The tokens of names with commas between them. -/
def namesTokens (spread : Bool) : List Text → List Token
  | [] => []
  | [name] => .ident name :: if spread then [.ellipsis] else []
  | name :: names => .ident name :: .comma :: namesTokens spread names

theorem namesText_cons (spread : Bool) (name next : Text) (names : List Text) :
    namesText spread (name :: next :: names) = name ++ (0x2c :: 0x20 :: namesText spread (next :: names)) := by
  have hsep : (", " : Text) = [0x2c, 0x20] := rfl
  simp [namesText, join, hsep]

theorem lex_comma (rest : Text) : lex true false (0x2c :: 0x20 :: rest) = (lex false false rest).map (.comma :: ·) := by
  have hblank : lex false false (0x20 :: rest) = lex false false rest :=
    (lex_cons false false 0x20 rest).trans (if_pos (.inl rfl))
  rw [← hblank]
  exact lex_bracket (by decide) rfl true false _

theorem lex_namesText (spread : Bool) {names : List Text} (hne : names ≠ []) (hnames : ∀ name ∈ names, IsName name)
    (o f : Bool) : lex o f (namesText spread names ++ ")") =
      some (namesTokens spread names ++ [.rparen, .semicolon false]) := by
  induction names generalizing o f with
  | nil => exact absurd rfl hne
  | cons name names ih =>
    obtain ⟨hname, hrest⟩ := List.forall_mem_cons.1 hnames
    cases names with
    | nil =>
      have hend : ∀ w ∈ [Text.ofString ")", Text.ofString "...)"], wordLength w = 0 := by
        decide +kernel
      cases spread with
      | false =>
        have htext : namesText false [name] ++ ")" = name ++ (")" : Text) := by simp [namesText, join]
        have hlex : lex true false (")" : Text) = some [.rparen, .semicolon false] := by decide +kernel
        rw [htext, hname.lex (hend _ (by simp)), hlex]
        rfl
      | true =>
        have htext : namesText true [name] ++ ")" = name ++ ("...)" : Text) := by
          rw [namesText, join, List.append_assoc]
          rfl
        have hlex : lex true false ("...)" : Text) = some [.ellipsis, .rparen, .semicolon false] := by decide +kernel
        rw [htext, hname.lex (hend _ (by simp)), hlex]
        rfl
    | cons next names =>
      have hend : ∀ w, wordLength (0x2c :: w) = 0 := wordLength_cons_ascii (by decide) (by decide)
      rw [namesText_cons, List.append_assoc, List.cons_append, List.cons_append, hname.lex (hend _), lex_comma,
        ih (by simp) hrest]
      rfl

theorem isClean_namesText (spread : Bool) {names : List Text} (hnames : ∀ name ∈ names, IsName name) (w : Text) :
    isClean (namesText spread names ++ w) = isClean w := by
  induction names with
  | nil => cases spread <;> exact isClean_ascii (by decide) w
  | cons name names ih =>
    obtain ⟨hname, hrest⟩ := List.forall_mem_cons.1 hnames
    cases names with
    | nil =>
      rw [namesText, join, List.append_assoc, hname.isClean_append]
      cases spread <;> exact isClean_ascii (by decide) w
    | cons next names =>
      rw [namesText_cons, List.append_assoc, hname.isClean_append]
      exact (isClean_ascii (p := [0x2c, 0x20]) (by decide) _).trans (ih hrest)

theorem tokens?_call {arguments : Text} {ts : List Token} (hclean : isClean (arguments ++ ")") = true)
    (hlex : ∀ o f, lex o f (arguments ++ ")") = some ts) :
    tokens? ("f(" ++ arguments ++ ")") = some (.ident "f" :: .lparen :: ts) := by
  obtain ⟨rest, hrest⟩ : ∃ rest : Text, rest = arguments ++ ")" := ⟨_, rfl⟩
  have hname : IsName "f" := by decide +kernel
  have htext : ("f(" : Text) ++ arguments ++ ")" = ("f" : Text) ++ 0x28 :: rest := by
    rw [hrest, List.append_assoc]
    rfl
  have hcall : lex false true (("f" : Text) ++ 0x28 :: rest) = some (.ident "f" :: .lparen :: ts) := by
    have hopen : lex true false (0x28 :: rest) = (lex false false rest).map (.lparen :: ·) :=
      lex_bracket (by decide) rfl true false rest
    rw [hname.lex (wordLength_cons_ascii (by decide) (by decide) rest), hopen, hrest, hlex]
    rfl
  have hopening : isClean (("f" : Text) ++ 0x28 :: rest) = true := by
    rw [hname.isClean_append]
    exact (isClean_ascii (p := [0x28]) (by decide) rest).trans (hrest ▸ hclean)
  rw [tokens?, htext, if_pos hopening]
  exact hcall

/-! ### Reading a call -/

open Parse Rules

/-- An argument, and whether it is spread. -/
def argument (r : Rules) : Parse (Expr × Bool) := do
  let x ← r.anyExpr
  let spread ← accept .ellipsis
  if spread && (← isNext .comma) && (← get).tokens[1]? != some .rparen then failure
  return (x, spread)

/-- An argument with the comma behind it, unless the call ends. -/
def argument? (r : Rules) : Parse (Option (Expr × Bool)) := do
  if ← (return !(← isNext .rparen)) then
    return some (← (do
      let a ← argument r
      if ← atComma .rparen then advance
      return a))
  else return Option.none

theorem callArgs_eq (r : Rules) (fn : Expr) : r.callArgs fn = (do
    let args ← nested (repeatSome (argument? r))
    expect .rparen
    return .call fn (args.map (·.1)) (args.any (·.2))) := rfl

/-- The arguments that names are, the last one spread or not. -/
def namesArguments (spread : Bool) : List Text → List (Expr × Bool)
  | [] => []
  | [name] => [(.ident name, spread)]
  | name :: names => (.ident name, false) :: namesArguments spread names

theorem map_fst_namesArguments (spread : Bool) (names : List Text) :
    (namesArguments spread names).map (·.1) = names.map .ident := by
  induction names with
  | nil => rfl
  | cons name names ih =>
    cases names with
    | nil => rfl
    | cons next names => exact congrArg (Expr.ident name :: ·) ih

theorem any_snd_namesArguments (spread : Bool) {names : List Text} (hne : names ≠ []) :
    (namesArguments spread names).any (·.2) = spread := by
  induction names with
  | nil => exact absurd rfl hne
  | cons name names ih =>
    cases names with
    | nil => simp [namesArguments]
    | cons next names => exact ih (List.cons_ne_nil next names)

section Runs

variable (n : Nat) (ts : List Token) (level : Int)

theorem argument?_comma (name : Text) : argument? (ofDepth (n + 3)) ⟨.ident name :: .comma :: ts, level⟩ =
    some (some (.ident name, false), ⟨ts, level⟩) := rfl

theorem argument?_last (name : Text) : argument? (ofDepth (n + 3)) ⟨.ident name :: .rparen :: ts, level⟩ =
    some (some (.ident name, false), ⟨.rparen :: ts, level⟩) := rfl

theorem argument?_spread (name : Text) :
    argument? (ofDepth (n + 3)) ⟨.ident name :: .ellipsis :: .rparen :: ts, level⟩ =
      some (some (.ident name, true), ⟨.rparen :: ts, level⟩) := rfl

theorem argument?_end : argument? (ofDepth (n + 3)) ⟨.rparen :: ts, level⟩ =
    some (Option.none, ⟨.rparen :: ts, level⟩) := rfl

theorem repeatSome_argument? (spread : Bool) (names : List Text) {k : Nat} (hk : names.length < k) :
    repeatSome.go (argument? (ofDepth (n + 3))) k ⟨namesTokens spread names ++ .rparen :: ts, level⟩ =
      some (namesArguments spread names, ⟨.rparen :: ts, level⟩) := by
  have hstop : ∀ {k}, 0 < k → repeatSome.go (argument? (ofDepth (n + 3))) k ⟨.rparen :: ts, level⟩ =
      some ([], ⟨.rparen :: ts, level⟩) := by
    intro k hk
    obtain ⟨k, rfl⟩ := Nat.exists_eq_succ_of_ne_zero (Nat.pos_iff_ne_zero.1 hk)
    exact bind_eq_some.2 ⟨_, _, argument?_end n ts level, rfl⟩
  have hgoes : ∀ {k s a s₁ as s'}, argument? (ofDepth (n + 3)) s = some (some a, s₁) →
      repeatSome.go (argument? (ofDepth (n + 3))) k s₁ = some (as, s') →
        repeatSome.go (argument? (ofDepth (n + 3))) (k + 1) s = some (a :: as, s') :=
    fun ha has => bind_eq_some.2 ⟨_, _, ha, bind_eq_some.2 ⟨_, _, has, rfl⟩⟩
  induction names generalizing k with
  | nil => exact hstop hk
  | cons name names ih =>
    rw [List.length_cons] at hk
    obtain ⟨k, rfl⟩ := Nat.exists_eq_succ_of_ne_zero (by omega : k ≠ 0)
    cases names with
    | nil =>
      cases spread with
      | false => exact hgoes (argument?_last n ts level name) (hstop (by omega))
      | true => exact hgoes (argument?_spread n ts level name) (hstop (by omega))
    | cons next names => exact hgoes (argument?_comma n _ level name) (ih (by omega))

/-- What stands between the brackets of a call is read with one level more. -/
theorem callArgs_names (spread : Bool) (names : List Text) (fn : Expr) :
    (ofDepth (n + 3)).callArgs fn ⟨namesTokens spread names ++ .rparen :: ts, 0⟩ =
      some (.call fn (names.map .ident) ((namesArguments spread names).any (·.2)), ⟨ts, 0⟩) := by
  have hlength : names.length < (namesTokens spread names ++ .rparen :: ts).length + 1 := by
    have hle : ∀ ns, ns.length ≤ (namesTokens spread ns).length := by
      intro ns
      induction ns with
      | nil => exact Nat.le_refl 0
      | cons name ns ih =>
        cases ns with
        | nil => simp [namesTokens]
        | cons next ns =>
          simp only [namesTokens, List.length_cons] at ih ⊢
          omega
    have := hle names
    rw [List.length_append]
    omega
  have hargs : repeatSome (argument? (ofDepth (n + 3))) ⟨namesTokens spread names ++ .rparen :: ts, 1⟩ =
      some (namesArguments spread names, ⟨.rparen :: ts, 1⟩) := repeatSome_argument? n ts 1 spread names hlength
  have hnested : nested (repeatSome (argument? (ofDepth (n + 3)))) ⟨namesTokens spread names ++ .rparen :: ts, 0⟩ =
      some (namesArguments spread names, ⟨.rparen :: ts, 0⟩) :=
    bind_eq_some.2 ⟨(), _, rfl, bind_eq_some.2 ⟨_, _, hargs, rfl⟩⟩
  rw [callArgs_eq, ← map_fst_namesArguments spread]
  exact bind_eq_some.2 ⟨_, _, hnested, rfl⟩

theorem anyExpr_call (spread : Bool) (names : List Text) (fn : Text) (written : Bool) : (ofDepth (n + 6)).anyExpr
      ⟨.ident fn :: .lparen :: (namesTokens spread names ++ [.rparen, .semicolon written]), 0⟩ =
    some (.call (.ident fn) (names.map .ident) ((namesArguments spread names).any (·.2)),
      ⟨[.semicolon written], 0⟩) := by
  obtain ⟨ts, hts⟩ : ∃ ts, ts = namesTokens spread names ++ [.rparen, .semicolon written] := ⟨_, rfl⟩
  have hcall := callArgs_names (n + 1) [.semicolon written] spread names (.ident fn)
  rw [← hts] at hcall ⊢
  have hprimary : (ofDepth (n + 4)).primary ⟨.ident fn :: .lparen :: ts, 0⟩ = some (.call (.ident fn)
      (names.map .ident) ((namesArguments spread names).any (·.2)), ⟨[.semicolon written], 0⟩) := by
    have hsuffixes : (ofDepth (n + 4)).primary ⟨.ident fn :: .lparen :: ts, 0⟩ =
        ((ofDepth (n + 4)).callArgs (.ident fn) >>= (ofDepth (n + 4)).suffixes (ts.length + 2)) ⟨ts, 0⟩ := rfl
    rw [hsuffixes]
    exact bind_eq_some.2 ⟨_, _, hcall, rfl⟩
  exact bind_eq_some.2 ⟨_, _, hprimary, rfl⟩

end Runs

/-- A call with names for arguments, of which the last may be spread. -/
theorem parseExpr?_call {t fn : Text} {spread : Bool} {names : List Text}
    (htokens : tokens? t = some (.ident fn :: .lparen :: (namesTokens spread names ++ [.rparen, .semicolon false]))) :
    parseExpr? t = some (.call (.ident fn) (names.map .ident) ((namesArguments spread names).any (·.2))) := by
  obtain ⟨ts, hts⟩ : ∃ ts,
      ts = Token.ident fn :: .lparen :: (namesTokens spread names ++ [.rparen, .semicolon false]) := ⟨_, rfl⟩
  obtain ⟨n, hn⟩ : ∃ n, 8 * (ts.length + 2) = n + 6 := ⟨8 * ts.length + 10, by omega⟩
  have hcall := anyExpr_call n spread names fn false
  rw [← hts] at htokens hcall
  have hrun : (do
      let x ← (ofDepth (n + 6)).anyExpr
      let _ ← accept (.semicolon false)
      return x : Parse Expr) { tokens := ts } = some (_, ⟨[], 0⟩) := bind_eq_some.2 ⟨_, _, hcall, rfl⟩
  rw [parseExpr?, parseAll?, htokens]
  refine Option.bind_eq_some_iff.2 ⟨ts, rfl, ?_⟩
  rw [hn]
  exact Option.bind_eq_some_iff.2 ⟨_, hrun, rfl⟩

end Host

open Host

/-- Names with commas between them are read as arguments, the last one spread if dots are behind it. -/
theorem readArguments?_namesText {spread : Bool} {names : List Text} (hnames : ∀ name ∈ names, IsName name)
    (hspread : names = [] → spread = false) :
    readArguments? (namesText spread names) = some (names.map .ident, spread) := by
  have hany : (namesArguments spread names).any (·.2) = spread := by
    by_cases hne : names = []
    · rw [hne, hspread hne]
      rfl
    · exact any_snd_namesArguments spread hne
  have hlex : ∀ o f, lex o f (namesText spread names ++ ")") =
      some (namesTokens spread names ++ [.rparen, .semicolon false]) := by
    by_cases hne : names = []
    · rw [hne, hspread hne]
      decide +kernel
    · exact lex_namesText spread hne hnames
  have hclean : isClean (namesText spread names ++ ")") = true := by
    rw [isClean_namesText spread hnames]
    decide +kernel
  rw [readArguments?, parseExpr?_call (tokens?_call hclean hlex), hany]

theorem dot_notMem_namesText {names : List Text} (hnames : ∀ name ∈ names, IsName name) :
    (0x2e : UInt8) ∉ namesText false names := by
  induction names with
  | nil => exact List.not_mem_nil
  | cons name names ih =>
    obtain ⟨hname, hrest⟩ := List.forall_mem_cons.1 hnames
    have hdot : (0x2e : UInt8) ∉ name := hname.word.notMem (by decide) (by decide)
    cases names with
    | nil => simpa [namesText, Text.join] using hdot
    | cons next names =>
      rw [namesText_cons]
      simp [hdot, ih hrest]

/-- Names have no dots in them, so only those behind the last name are there. -/
theorem dots_suffix_namesText {spread : Bool} {names : List Text} (hnames : ∀ name ∈ names, IsName name) :
    Text.ofString "..." <:+ namesText spread names ↔ spread = true := by
  cases spread with
  | true => exact iff_of_true (List.suffix_append _ _) rfl
  | false =>
    have hdot : (0x2e : UInt8) ∈ Text.ofString "..." := by decide
    exact iff_of_false (fun hdots => dot_notMem_namesText hnames (hdots.subset hdot)) Bool.false_ne_true

theorem namesText_not_blank (spread : Bool) {name : Text} (h : IsName name) (names : List Text) :
    (namesText spread (name :: names)).isBlank = false := by
  obtain ⟨w, hw⟩ : ∃ w, namesText spread (name :: names) = name ++ w := by
    cases names with
    | nil => exact ⟨_, rfl⟩
    | cons next names => exact ⟨_, namesText_cons spread name next names⟩
  obtain ⟨b, t, rfl, hstart⟩ := h.start
  rw [hw, List.cons_append]
  refine Text.isBlank_eq_false (List.cons_ne_nil _ _) (spaceLength_of_start ?_)
  rwa [decode_append_part (isWordPart_of_start hstart)]

/-! ### What a signature forwards -/

namespace Signature

theorem args_eq (s : Signature) (hvariadic : s.names = [] → s.variadic = false) :
    s.args = namesText s.variadic s.names := by
  by_cases hnil : s.names = []
  · rw [hnil, hvariadic hnil, args, hnil]
    rfl
  · rw [args, if_neg (by simpa using hnil)]
    rfl

/-- Behind a handle the names follow after a comma, if there are any. -/
theorem andMore_args_eq (s : Signature) (hnames : ∀ name ∈ s.names, IsName name)
    (hvariadic : s.names = [] → s.variadic = false) (var : Text) :
    Code.andMore var s.args = namesText s.variadic (var :: s.names) := by
  rw [s.args_eq hvariadic, Code.andMore]
  cases h : s.names with
  | nil =>
    rw [hvariadic h]
    have hblank : (namesText false []).isBlank = true := by decide +kernel
    rw [if_pos hblank]
    exact (List.append_nil var).symm
  | cons name names =>
    have hname : IsName name := hnames name (h ▸ List.mem_cons_self ..)
    rw [namesText_not_blank s.variadic hname, if_neg Bool.false_ne_true, namesText_cons, List.append_assoc]
    rfl

end Signature

end MeaningForest

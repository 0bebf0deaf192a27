import MeaningForest.Proofs.Balance

/-!
# What the rules of a signature take

Parameters and type parameters are groups: brackets that belong together, and nothing behind them.  Where a rule gives
an empty list there is nothing between the brackets.

* `Rules.Balanced.exists_params` and `Rules.Balanced.exists_typeParams`: the groups.
* `exists_signature`: a text that is read as a function type is the word and a signature.
* `exists_typeParams`: a file that begins with a function that has type parameters, and when nothing else is declared.
-/

namespace MeaningForest.Host

open Parse

namespace Parse

variable {α β : Type}

theorem isNext_true {t : Token} {s : Source} (h : isNext t s = some (true, s)) : ∃ ts, s.tokens = t :: ts := by
  obtain ⟨t', ht, rfl⟩ := (Looks.isNext t s true s h).2 rfl
  exact List.head?_eq_some_iff.1 ht

theorem isNext_false {t : Token} {s : Source} (h : isNext t s = some (false, s)) : s.tokens.head? ≠ some t := by
  obtain ⟨hne, -⟩ := pure_eq_some.1 h
  simpa using hne

theorem accept_eq_some {t : Token} {s s' : Source} {a : Bool} (h : accept t s = some (a, s')) :
    a = true ∧ s.tokens = t :: s'.tokens ∨ a = false ∧ s' = s ∧ s.tokens.head? ≠ some t := by
  obtain ⟨next, hnext, hrest⟩ := (Looks.isNext t).exists_of_bind h
  cases next with
  | true =>
    obtain ⟨ts, hts⟩ := isNext_true hnext
    obtain ⟨rfl, rfl⟩ := pure_eq_some.1 hrest
    exact .inl ⟨rfl, by simp [hts]⟩
  | false =>
    obtain ⟨rfl, rfl⟩ := pure_eq_some.1 hrest
    exact .inr ⟨rfl, rfl, isNext_false hnext⟩

theorem expect_eq_some {t : Token} {s s' : Source} {u : Unit} (h : expect t s = some (u, s')) :
    s.tokens = t :: s'.tokens := by
  obtain ⟨next, hnext, hrest⟩ := (Looks.isNext t).exists_of_bind h
  cases next with
  | true =>
    obtain ⟨ts, hts⟩ := isNext_true hnext
    obtain ⟨-, rfl⟩ := pure_eq_some.1 hrest
    simp [hts]
  | false => cases hrest

theorem ident_eq_some {s s' : Source} {name : Text} (h : ident s = some (name, s')) :
    s.tokens = .ident name :: s'.tokens := by
  obtain ⟨o, s₁, ho, hrest⟩ := bind_eq_some.1 h
  obtain ⟨hhead, rfl⟩ := pure_eq_some.1 ho
  split at hrest
  · obtain ⟨ts, hts⟩ := List.head?_eq_some_iff.1 hhead
    obtain ⟨rfl, rfl⟩ := pure_eq_some.1 hrest
    simp [hts]
  · cases hrest

/-- A statement ends in a semicolon or before a closing bracket. -/
theorem endStatement_eq_some {s s' : Source} {u : Unit} (h : endStatement s = some (u, s')) :
    (∃ written, s.tokens = .semicolon written :: s'.tokens) ∨
      (∃ t ∈ [Token.rparen, .rbrace], s.tokens.head? = some t) ∧ s' = s := by
  obtain ⟨closes, hcloses, hrest⟩ := (Looks.isNextOf _).exists_of_bind h
  cases closes with
  | true =>
    obtain ⟨-, rfl⟩ := pure_eq_some.1 hrest
    obtain ⟨t, ht, hmem⟩ := (Looks.isNextOf _ _ _ _ hcloses).2 rfl
    exact .inr ⟨⟨t, hmem, ht⟩, rfl⟩
  | false =>
    obtain ⟨semicolon, hsemicolon, hend⟩ := Looks.isSemicolon.exists_of_bind hrest
    cases semicolon with
    | true =>
      obtain ⟨-, rfl⟩ := pure_eq_some.1 hend
      obtain ⟨t, ht, written, rfl⟩ := (Looks.isSemicolon _ _ _ hsemicolon).2 rfl
      obtain ⟨ts, hts⟩ := List.head?_eq_some_iff.1 ht
      exact .inl ⟨written, by simp [hts]⟩
    | false => cases hend

/-- What a rule gives satisfies `Q`. -/
def Gives (Q : α → Prop) (p : Parse α) : Prop := ∀ s a s', p s = some (a, s') → Q a

namespace Gives

variable {Q : α → Prop} {p q : Parse α}

theorem pure {a : α} (h : Q a) : Gives Q (Pure.pure a) := by
  intro s x s' hx
  obtain ⟨rfl, -⟩ := pure_eq_some.1 hx
  exact h

theorem failure : Gives Q failure := fun _ _ _ h => nomatch h

theorem failure_bind {f : β → Parse α} : Gives Q (Alternative.failure >>= f) := fun _ _ _ h => nomatch h

theorem bind {R : β → Prop} {p : Parse β} {f : β → Parse α} (hp : Gives R p) (hf : ∀ b, R b → Gives Q (f b)) :
    Gives Q (p >>= f) := by
  intro s x s' hx
  obtain ⟨b, s₁, hb, hx⟩ := bind_eq_some.1 hx
  exact hf b (hp s b s₁ hb) s₁ x s' hx

theorem bind_any {p : Parse β} {f : β → Parse α} (hf : ∀ b, Gives Q (f b)) : Gives Q (p >>= f) :=
  bind (R := fun _ => True) (fun _ _ _ _ => trivial) fun b _ => hf b

theorem ite {P : Prop} [Decidable P] (hp : Gives Q p) (hq : Gives Q q) : Gives Q (if P then p else q) := by
  split
  · exact hp
  · exact hq

theorem nested (hp : Gives Q p) : Gives Q (nested p) :=
  bind_any fun _ => bind hp fun _ ha => bind_any fun _ => pure ha

theorem repeatSome {item : Parse (Option α)} (h : Gives (∀ a ∈ ·, Q a) item) :
    Gives (∀ a ∈ ·, Q a) (repeatSome item) := by
  have hgo : ∀ n, Gives (∀ a ∈ ·, Q a) (repeatSome.go item n) := by
    intro n
    induction n with
    | zero => exact failure
    | succ n ih =>
      refine bind h fun a ha => ?_
      cases a with
      | none => exact pure fun a h => nomatch h
      | some a => exact bind ih fun as has => pure (List.forall_mem_cons.2 ⟨ha a rfl, has⟩)
  exact bind_any fun s => hgo _

theorem commaList {item : Parse α} (closing : Token) (h : Gives Q item) :
    Gives (∀ a ∈ ·, Q a) (commaList closing item) := by
  have hitem : Gives Q (do
      let a ← item
      if ← atComma closing then advance
      return a) := bind h fun a ha => bind_any fun _ => ite (bind_any fun _ => pure ha) (pure ha)
  refine repeatSome (bind_any fun _ => ite (bind hitem fun a ha => pure fun x hx => ?_) (pure fun a h => nomatch h))
  exact Option.some.inj hx ▸ ha

end Gives

/-- What is repeated stops at once or goes on after an item. -/
theorem repeatWhile_go_cases {more : Parse Bool} {item : Parse α} {n : Nat} {s s' : Source} {as : List α}
    (h : repeatSome.go (do if ← more then return some (← item) else return none) n s = some (as, s')) :
    as = [] ∧ more s = some (false, s') ∨
      ∃ m a rest s₁ s₂, as = a :: rest ∧ more s = some (true, s₁) ∧ item s₁ = some (a, s₂) ∧
        repeatSome.go (do if ← more then return some (← item) else return none) m s₂ = some (rest, s') := by
  cases n with
  | zero => cases h
  | succ n =>
    obtain ⟨a, s₂, ha, hrest⟩ := bind_eq_some.1 h
    obtain ⟨goes, s₁, hgoes, hitem⟩ := bind_eq_some.1 ha
    cases goes with
    | false =>
      obtain ⟨rfl, rfl⟩ := pure_eq_some.1 hitem
      obtain ⟨rfl, rfl⟩ := pure_eq_some.1 hrest
      exact .inl ⟨rfl, hgoes⟩
    | true =>
      obtain ⟨x, s₃, hx, hend⟩ := bind_eq_some.1 hitem
      obtain ⟨rfl, rfl⟩ := pure_eq_some.1 hend
      obtain ⟨rest, s₄, hgo, hend⟩ := bind_eq_some.1 hrest
      obtain ⟨rfl, rfl⟩ := pure_eq_some.1 hend
      exact .inr ⟨n, x, rest, s₁, s₃, rfl, hgoes, hx, hgo⟩

theorem repeatWhile_cases {more : Parse Bool} {item : Parse α} {s s' : Source} {as : List α}
    (h : repeatWhile more item s = some (as, s')) :
    as = [] ∧ more s = some (false, s') ∨
      ∃ m a rest s₁ s₂, as = a :: rest ∧ more s = some (true, s₁) ∧ item s₁ = some (a, s₂) ∧
        repeatSome.go (do if ← more then return some (← item) else return none) m s₂ = some (rest, s') := by
  obtain ⟨x, s₁, hx, hgo⟩ := bind_eq_some.1 h
  obtain ⟨-, rfl⟩ := pure_eq_some.1 hx
  exact repeatWhile_go_cases hgo

theorem commaList_nil {item : Parse α} {closing : Token} {s s' : Source}
    (h : commaList closing item s = some ([], s')) : s' = s := by
  rcases repeatWhile_cases h with ⟨-, hmore⟩ | ⟨_, _, _, _, _, hnil, -⟩
  · exact (pure_eq_some.1 hmore).2.symm
  · cases hnil

end Parse

namespace Rules

variable {r : Rules} {s s' : Source}

/-! ### Parameters -/

/-- An entry that declares something. -/
def Entry.Declares (e : Entry) : Prop := e.name.isSome ∨ e.type.isSome

theorem entryFrom_declares (r : Rules) (unions : Bool) (name : Text) :
    Gives Entry.Declares (r.entryFrom unions name) := by
  have hclose : ∀ (n : Option Text) (t : Expr), Gives Entry.Declares (do
      if unions && (← isNext (.op "|")) then return ⟨n, some (← r.unionFrom t)⟩ else return ⟨n, some t⟩ :
        Parse Entry) :=
    fun n t => .bind_any fun _ => .ite (.bind_any fun _ => .pure (.inr rfl)) (.pure (.inr rfl))
  exact .bind_any fun _ => .ite (.bind_any fun _ => hclose _ _) <|
    .bind_any fun _ => .ite (.bind_any fun _ => hclose _ _) <|
    .bind_any fun _ => .ite (.bind_any fun _ => .pure (.inr rfl)) <|
    .bind_any fun _ => .ite (.bind_any fun _ => hclose _ _) <|
    .bind_any fun _ => .ite (.bind_any fun _ => .bind_any fun _ => .pure (.inr rfl)) <|
    .bind_any fun _ => .ite (.bind_any fun _ => .pure (.inr rfl)) (.pure (.inl rfl))

theorem entry_declares (r : Rules) (unions : Bool) : Gives Entry.Declares (r.entry unions) :=
  .bind_any fun _ => .ite (.bind_any fun _ => .bind_any fun _ => .pure (.inr rfl)) <|
  .bind_any fun _ => .ite (.bind_any fun _ => entryFrom_declares r unions _) <|
  .bind_any fun _ => .ite (.bind_any fun _ => .pure (.inr rfl)) <|
  .bind_any fun _ => .bind_any fun _ => .ite
    (.bind_any fun _ => .bind_any fun _ => .ite (.bind_any fun _ => .pure (.inr rfl)) (.pure (.inr rfl))) .failure

theorem namedFields_eq_nil {es : List Entry} (h : namedFields es = some []) : es = [] := by
  cases es with
  | nil => rfl
  | cons e es =>
    obtain ⟨_ | n, _ | t⟩ := e
    · cases h
    · cases h
    · rw [namedFields] at h
      split at h <;> cases h
    · rw [namedFields, Option.map_eq_some_iff] at h
      obtain ⟨fs, -, h⟩ := h
      cases h

/-- Entries that declare no field are none. -/
theorem fieldsOf?_eq_nil {typeParams variadic : Bool} {es : List Entry} (hes : ∀ e ∈ es, e.Declares)
    (h : fieldsOf? typeParams variadic es = some []) : es = [] := by
  have hdots : ∀ fields : List Field, (if dotsAllowed variadic fields then some fields else Option.none) = some [] →
      fields = [] := by
    intro fields h
    split at h
    · exact Option.some.inj h
    · cases h
  rw [fieldsOf?] at h
  split at h
  · cases h
  · dsimp only at h
    split at h
    · obtain ⟨fields, hfields, hend⟩ := Option.bind_eq_some_iff.1 h
      obtain rfl := hdots fields hend
      exact namedFields_eq_nil hfields
    · have hnone := List.filterMap_eq_nil_iff.1 (hdots _ h)
      refine List.eq_nil_iff_forall_not_mem.2 fun e he => ?_
      have hname := hnone e he
      obtain ⟨_ | n, _ | t⟩ := e
      · exact (hes _ he).elim (fun h => nomatch h) fun h => nomatch h
      all_goals cases hname

/-- Parameters stand between brackets that belong together. -/
theorem Balanced.exists_params (h : r.Balanced) {variadic : Bool} {fs : List Field}
    (hs : r.params variadic s = some (fs, s')) :
    ∃ inner, s.tokens = .lparen :: (inner ++ .rparen :: s'.tokens) ∧ unclosed [] inner = some [] := by
  obtain ⟨_, s₁, hopen, hs⟩ := bind_eq_some.1 hs
  obtain ⟨es, s₂, hes, hs⟩ := bind_eq_some.1 hs
  obtain ⟨_, s₃, hclose, hs⟩ := bind_eq_some.1 hs
  obtain ⟨inner, hinner, hkeeps⟩ := Keeps.commaList .rparen (h.entry false) [] _ s₁ es s₂ rfl hes
  refine ⟨inner, ?_, hkeeps⟩
  cases hfields : fieldsOf? false variadic es with
  | none =>
    rw [hfields] at hs
    cases hs
  | some fields =>
    rw [hfields] at hs
    obtain ⟨-, rfl⟩ := pure_eq_some.1 hs
    rw [expect_eq_some hopen, hinner, expect_eq_some hclose]

theorem params_nil {variadic : Bool} (hs : r.params variadic s = some ([], s')) :
    s.tokens = .lparen :: .rparen :: s'.tokens := by
  obtain ⟨_, s₁, hopen, hs⟩ := bind_eq_some.1 hs
  obtain ⟨es, s₂, hes, hs⟩ := bind_eq_some.1 hs
  obtain ⟨_, s₃, hclose, hs⟩ := bind_eq_some.1 hs
  cases hfields : fieldsOf? false variadic es with
  | none =>
    rw [hfields] at hs
    cases hs
  | some fields =>
    rw [hfields] at hs
    obtain ⟨rfl, rfl⟩ := pure_eq_some.1 hs
    obtain rfl := fieldsOf?_eq_nil (Gives.commaList _ (entry_declares r false) _ _ _ hes) hfields
    obtain rfl := commaList_nil hes
    rw [expect_eq_some hopen, expect_eq_some hclose]

theorem params_empty (variadic : Bool) (ts : List Token) (level : Int) :
    r.params variadic ⟨.lparen :: .rparen :: ts, level⟩ = some ([], ⟨ts, level⟩) := rfl

/-- A type parameter list ends in its closing bracket. -/
theorem typeParamsEnd_eq_some (es : List Entry) {fs : List Field} (hs : (do
    expect .rbrack
    match fieldsOf? true false es with
    | some fs => return fs
    | Option.none => failure : Parse (List Field)) s = some (fs, s')) : s.tokens = .rbrack :: s'.tokens := by
  obtain ⟨_, s₁, hclose, hs⟩ := bind_eq_some.1 hs
  cases hfields : fieldsOf? true false es with
  | none =>
    rw [hfields] at hs
    cases hs
  | some fields =>
    rw [hfields] at hs
    obtain ⟨-, rfl⟩ := pure_eq_some.1 hs
    exact expect_eq_some hclose

/-- Type parameters stand between brackets that belong together. -/
theorem Balanced.exists_typeParams (h : r.Balanced) {fs : List Field} (hs : r.typeParams s = some (fs, s')) :
    ∃ inner, s.tokens = .lbrack :: (inner ++ .rbrack :: s'.tokens) ∧ unclosed [] inner = some [] := by
  obtain ⟨_, s₁, hopen, hs⟩ := bind_eq_some.1 hs
  obtain ⟨first, s₂, hfirst, hs⟩ := bind_eq_some.1 hs
  obtain ⟨us, hus, hkeeps⟩ := h.entry true [] _ s₁ first s₂ rfl hfirst
  obtain ⟨goes, hgoes, hs⟩ := (Looks.atComma .rbrack).exists_of_bind hs
  split at hs
  · obtain ⟨t, ht, rfl⟩ := (Looks.atComma .rbrack s₂ goes s₂ hgoes).2 ‹_›
    obtain ⟨_, s₄, hadvance, hs⟩ := bind_eq_some.1 hs
    obtain ⟨es, s₅, hes, hs⟩ := bind_eq_some.1 hs
    have hmore : MovesAt (some .comma) [] [] (do advance; commaList .rbrack (r.entry true)) :=
      .bind (.advance rfl) fun _ => Keeps.commaList .rbrack (h.entry true) []
    obtain ⟨vs, hvs, hclosed⟩ := hmore s₂ es s₅ ht (bind_eq_some.2 ⟨_, s₄, hadvance, hes⟩)
    refine ⟨us ++ vs, ?_, by rw [unclosed_append, hkeeps, Option.bind_some, hclosed]⟩
    rw [expect_eq_some hopen, hus, hvs, typeParamsEnd_eq_some (first :: es) hs, List.append_assoc]
  · refine ⟨us, ?_, hkeeps⟩
    rw [expect_eq_some hopen, hus, typeParamsEnd_eq_some [first] hs]

/-! ### Types that may be missing -/

theorem typeRule_none (h : r.typeRule s = some (Option.none, s')) : s' = s := by
  obtain ⟨o, s₁, ho, h⟩ := bind_eq_some.1 h
  obtain ⟨-, rfl⟩ := pure_eq_some.1 ho
  have hsome : ∀ {p : Parse (Option Expr)}, Gives (·.isSome) p → p s = some (Option.none, s') → s' = s :=
    fun hp h => absurd (hp _ _ _ h) (by simp)
  split at h
  · exact hsome (.bind_any fun _ => .bind_any fun _ => .pure rfl) h
  · exact hsome (.bind_any fun _ => .bind_any fun _ => .pure rfl) h
  · exact hsome (.bind_any fun _ => .bind_any fun _ => .pure rfl) h
  · exact hsome (.bind_any fun _ => .bind_any fun _ => .pure rfl) h
  · exact hsome (.bind_any fun _ => .bind_any fun _ => .pure rfl) h
  · exact hsome (.bind_any fun _ => .bind_any fun _ => .pure rfl) h
  · exact hsome (.bind_any fun _ => .bind_any fun _ => .pure rfl) h
  · exact hsome (.bind_any fun _ => .bind_any fun _ => .ite
      (.bind_any fun _ => .pure rfl) (.bind_any fun _ => .pure rfl)) h
  · exact hsome (.bind_any fun _ => .bind_any fun _ => .bind_any fun _ => .pure rfl) h
  · exact hsome (.bind_any fun _ => .bind_any fun _ => .bind_any fun _ => .pure rfl) h
  · obtain ⟨-, rfl⟩ := pure_eq_some.1 h
    rfl

/-- Rules that take nothing where there is no type. -/
theorem results_none {n : Nat} (h : (ofDepth (n + 1)).results s = some (Option.none, s')) : s' = s := by
  obtain ⟨list, -, h⟩ := (Looks.isNext .lparen).exists_of_bind h
  split at h
  · obtain ⟨fs, s₂, -, h⟩ := bind_eq_some.1 h
    cases h
  · obtain ⟨t, s₂, ht, h⟩ := bind_eq_some.1 h
    cases t with
    | none =>
      obtain ⟨-, rfl⟩ := pure_eq_some.1 h
      exact typeRule_none ht
    | some t => cases h

theorem results_nil (h : r.results s = some (some [], s')) : s.tokens = .lparen :: .rparen :: s'.tokens := by
  obtain ⟨list, -, h⟩ := (Looks.isNext .lparen).exists_of_bind h
  split at h
  · obtain ⟨fs, s₂, hfs, h⟩ := bind_eq_some.1 h
    cases h
    exact params_nil hfs
  · obtain ⟨t, s₂, -, h⟩ := bind_eq_some.1 h
    cases t <;> cases h

theorem results_empty (ts : List Token) (level : Int) :
    r.results ⟨.lparen :: .rparen :: ts, level⟩ = some (some [], ⟨ts, level⟩) := rfl

theorem results_semicolon (n : Nat) (written : Bool) (ts : List Token) (level : Int) :
    (ofDepth (n + 1)).results ⟨.semicolon written :: ts, level⟩ =
      some (Option.none, ⟨.semicolon written :: ts, level⟩) := rfl

theorem block_nil (h : r.block s = some ([], s')) : s.tokens = .lbrace :: .rbrace :: s'.tokens := by
  obtain ⟨_, s₁, hopen, h⟩ := bind_eq_some.1 h
  obtain ⟨body, s₂, hbody, h⟩ := bind_eq_some.1 h
  obtain ⟨_, s₃, hclose, h⟩ := bind_eq_some.1 h
  obtain ⟨rfl, rfl⟩ := pure_eq_some.1 h
  rcases repeatWhile_cases hbody with ⟨-, hmore⟩ | ⟨_, _, _, _, _, hnil, -⟩
  · obtain ⟨_, -, hmore⟩ := (Looks.isNextOf _).exists_of_bind hmore
    obtain ⟨-, rfl⟩ := pure_eq_some.1 hmore
    rw [expect_eq_some hopen, expect_eq_some hclose]
  · cases hnil

theorem block_empty (ts : List Token) (level : Int) :
    r.block ⟨.lbrace :: .rbrace :: ts, level⟩ = some ([], ⟨ts, level⟩) := rfl

/-! ### Function types -/

/-- An expression that is no function type. -/
def NoFunc (x : Expr) : Prop := ∀ ps rs, x ≠ .func ps rs

theorem selection_noFunc (r : Rules) (x : Expr) : Gives NoFunc (r.selection x) :=
  .bind_any fun _ => .ite
    (.bind_any fun _ => .ite (.bind_any fun _ => .pure nofun) (.bind_any fun _ => .bind_any fun _ => .pure nofun))
    (.bind_any fun _ => .pure nofun)

theorem indexingEnd_noFunc (r : Rules) (x : Expr) (low : Option Expr) : Gives NoFunc (do
    if ← accept .colon then
      let high ← r.sliceBound
      if ← accept .colon then
        let max ← r.sliceBound
        if high.isNone || max.isNone then failure
        return Expr.slice x low high max true
      return Expr.slice x low high Option.none false
    match low with
    | Option.none => failure
    | some first =>
      let more ← repeatWhile (isNext .comma) do
        advance
        if ← isNext .rbrack then return Option.none else return some (← r.type)
      return Expr.index x (first :: more.filterMap id) : Parse Expr) := by
  refine .bind_any fun _ => .ite (.bind_any fun _ => .bind_any fun _ => .ite
    (.bind_any fun _ => .ite (.bind_any fun _ => .pure nofun) (.pure nofun)) (.pure nofun)) ?_
  cases low with
  | none => exact .failure
  | some first => exact .bind_any fun _ => .pure nofun

theorem indexing_noFunc (r : Rules) (x : Expr) : Gives NoFunc (r.indexing x) :=
  .bind_any fun _ => .ite .failure_bind
    (.bind (.nested (.bind_any fun _ => .ite (.bind_any fun _ => indexingEnd_noFunc r x _)
      (.bind_any fun _ => indexingEnd_noFunc r x _))) fun _ hresult => .bind_any fun _ => .pure hresult)

theorem callArgs_noFunc (r : Rules) (x : Expr) : Gives NoFunc (r.callArgs x) :=
  .bind_any fun _ => .bind_any fun _ => .pure nofun

theorem literalValue_noFunc : ∀ (n : Nat) (type : Option Expr), Gives NoFunc ((ofDepth n).literalValue type)
  | 0, _ => .failure
  | _ + 1, _ => .bind_any fun _ => .bind_any fun _ => .bind_any fun _ => .pure nofun

/-- Nothing that stands behind an operand makes a function type of it. -/
theorem suffixes_func {n m : Nat} {x : Expr} {ps : List Field} {rs : Option (List Field)}
    (h : (ofDepth n).suffixes m x s = some (.func ps rs, s')) : x = .func ps rs ∧ s' = s := by
  induction m generalizing x s with
  | zero => cases h
  | succ m ih =>
    have hno : ∀ {y : Expr} {s₁ : Source}, NoFunc y → (ofDepth n).suffixes m y s₁ = some (.func ps rs, s') → False :=
      fun hy h => hy ps rs (ih h).1
    obtain ⟨o, s₁, ho, h⟩ := bind_eq_some.1 h
    obtain ⟨-, rfl⟩ := pure_eq_some.1 ho
    split at h
    · obtain ⟨_, s₂, -, h⟩ := bind_eq_some.1 h
      obtain ⟨y, s₃, hy, h⟩ := bind_eq_some.1 h
      exact (hno (selection_noFunc _ x _ y s₃ hy) h).elim
    · obtain ⟨_, s₂, -, h⟩ := bind_eq_some.1 h
      obtain ⟨y, s₃, hy, h⟩ := bind_eq_some.1 h
      exact (hno (indexing_noFunc _ x _ y s₃ hy) h).elim
    · obtain ⟨_, s₂, -, h⟩ := bind_eq_some.1 h
      obtain ⟨y, s₃, hy, h⟩ := bind_eq_some.1 h
      exact (hno (callArgs_noFunc _ x _ y s₃ hy) h).elim
    · obtain ⟨s₀, s₂, hget, h⟩ := bind_eq_some.1 h
      obtain ⟨-, rfl⟩ := pure_eq_some.1 hget
      split at h
      · split at h
        · cases h
        · obtain ⟨y, s₃, hy, h⟩ := bind_eq_some.1 h
          exact (hno (literalValue_noFunc n _ _ y s₃ hy) h).elim
      · obtain ⟨rfl, rfl⟩ := pure_eq_some.1 h
        exact ⟨rfl, rfl⟩
    · obtain ⟨rfl, rfl⟩ := pure_eq_some.1 h
      exact ⟨rfl, rfl⟩

theorem binaryFrom_func {least m : Nat} {x : Expr} {ps : List Field} {rs : Option (List Field)}
    (h : r.binaryFrom least m x s = some (.func ps rs, s')) : x = .func ps rs ∧ s' = s := by
  induction m generalizing x s with
  | zero => cases h
  | succ m ih =>
    obtain ⟨o, s₁, ho, h⟩ := bind_eq_some.1 h
    obtain ⟨-, rfl⟩ := pure_eq_some.1 ho
    cases hprec : o.bind precedence? with
    | none =>
      rw [hprec] at h
      obtain ⟨rfl, rfl⟩ := pure_eq_some.1 h
      exact ⟨rfl, rfl⟩
    | some m =>
      rw [hprec] at h
      dsimp only at h
      split at h
      · obtain ⟨rfl, rfl⟩ := pure_eq_some.1 h
        exact ⟨rfl, rfl⟩
      · obtain ⟨_, s₂, -, h⟩ := bind_eq_some.1 h
        obtain ⟨y, s₃, -, h⟩ := bind_eq_some.1 h
        cases (ih h).1

/-- A function type at the beginning is all that is read. -/
theorem anyExpr_func {n : Nat} {ts : List Token} {level : Int} {ps : List Field} {rs : Option (List Field)}
    (h : (ofDepth (n + 3)).anyExpr ⟨.keyword "func" :: ts, level⟩ = some (.func ps rs, s')) :
    (ofDepth (n + 1)).signature ⟨ts, level⟩ = some ((ps, rs), s') := by
  obtain ⟨x, s₁, hx, h⟩ := bind_eq_some.1 h
  obtain ⟨bound, s₂, hbound, h⟩ := bind_eq_some.1 h
  obtain ⟨-, rfl⟩ := pure_eq_some.1 hbound
  obtain ⟨rfl, rfl⟩ := binaryFrom_func h
  -- no operator stands before the word
  have hprimary : (ofDepth (n + 1)).primary ⟨.keyword "func" :: ts, level⟩ = some (.func ps rs, s') := hx
  obtain ⟨bound, s₃, hbound, h⟩ := bind_eq_some.1 hprimary
  obtain ⟨-, rfl⟩ := pure_eq_some.1 hbound
  obtain ⟨x, s₄, hx, h⟩ := bind_eq_some.1 h
  obtain ⟨rfl, rfl⟩ := suffixes_func h
  have hfunc : (ofDepth (n + 1)).funcTypeOrLit ⟨ts, level⟩ = some (.func ps rs, s') := hx
  obtain ⟨⟨ps', rs'⟩, s₅, hsignature, h⟩ := bind_eq_some.1 hfunc
  obtain ⟨body, -, h⟩ := (Looks.isNext .lbrace).exists_of_bind h
  split at h
  · obtain ⟨_, s₆, -, h⟩ := bind_eq_some.1 h
    cases h
  · obtain ⟨hfields, rfl⟩ := pure_eq_some.1 h
    obtain ⟨rfl, rfl⟩ := Expr.func.inj hfields
    exact hsignature

/-! ### Functions -/

/-- A function with a name and type parameters. -/
theorem funcDecl_eq_some {d : Decl} {name : Text} {ts : List Token} (h : r.funcDecl s = some (d, s'))
    (hs : s.tokens = .ident name :: .lbrack :: ts) :
    ∃ fields ps rs body s₀ s₁ s₂, d = .func Option.none name fields ps rs body ∧ s₀.tokens = .lbrack :: ts ∧
      r.typeParams s₀ = some (fields, s₁) ∧ r.signature s₁ = some ((ps, rs), s₂) ∧
      ((∃ stmts s₃ u, body = some stmts ∧ r.block s₂ = some (stmts, s₃) ∧ endStatement s₃ = some (u, s')) ∨
        body = Option.none ∧ isNext .lbrace s₂ = some (false, s₂)) := by
  obtain ⟨receiver, hreceiver, h⟩ := (Looks.isNext .lparen).exists_of_bind h
  obtain rfl : receiver = false := by
    refine Bool.eq_false_iff.2 fun htrue => ?_
    obtain ⟨us, hus⟩ := isNext_true (htrue ▸ hreceiver)
    cases hs.symm.trans hus
  obtain ⟨_, _, hpure, h⟩ := bind_eq_some.1 h
  obtain ⟨rfl, rfl⟩ := pure_eq_some.1 hpure
  obtain ⟨name', s₀, hname, h⟩ := bind_eq_some.1 h
  obtain ⟨hname', h₀⟩ := List.cons.inj (hs.symm.trans (ident_eq_some hname))
  obtain rfl := Token.ident.inj hname'
  obtain ⟨types, htypes, h⟩ := (Looks.isNext .lbrack).exists_of_bind h
  cases types with
  | false => exact absurd (by rw [← h₀]; rfl) (isNext_false htypes)
  | true =>
    obtain ⟨fields, s₁, hfields, h⟩ := bind_eq_some.1 h
    obtain ⟨⟨ps, rs⟩, s₂, hsignature, h⟩ := bind_eq_some.1 h
    obtain ⟨braced, hbraced, h⟩ := (Looks.isNext .lbrace).exists_of_bind h
    cases braced with
    | true =>
      obtain ⟨stmts, s₃, hblock, h⟩ := bind_eq_some.1 h
      obtain ⟨u, s₄, hend, h⟩ := bind_eq_some.1 h
      obtain ⟨rfl, rfl⟩ := pure_eq_some.1 h
      exact ⟨fields, ps, rs, _, s₀, s₁, s₂, rfl, h₀.symm, hfields, hsignature, .inl ⟨stmts, s₃, u, rfl, hblock, hend⟩⟩
    | false =>
      obtain ⟨u, s₄, hend, h⟩ := bind_eq_some.1 h
      obtain ⟨again, -, h⟩ := (Looks.isNext .lbrace).exists_of_bind h
      cases again with
      | true => cases h
      | false =>
        obtain ⟨rfl, rfl⟩ := pure_eq_some.1 h
        exact ⟨fields, ps, rs, _, s₀, s₁, s₂, rfl, h₀.symm, hfields, hsignature, .inr ⟨rfl, hbraced⟩⟩

/-- The end of a function that is empty: no parameters, no results and no statements. -/
theorem empty_tail {n : Nat} {ps : List Field} {rs : Option (List Field)} {body : Option (List Stmt)} {s₁ s₂ : Source}
    (hsignature : (ofDepth (n + 1)).signature s₁ = some ((ps, rs), s₂))
    (hbody : (∃ stmts s₃ u, body = some stmts ∧ (ofDepth (n + 1)).block s₂ = some (stmts, s₃) ∧
        endStatement s₃ = some (u, s')) ∨ body = Option.none ∧ isNext .lbrace s₂ = some (false, s₂)) :
    (ps = [] ∧ rs = Option.none ∧ body = some [] ∧ s'.tokens = [] ↔
      ∃ written, s₁.tokens = [.lparen, .rparen, .lbrace, .rbrace, .semicolon written]) := by
  constructor
  · rintro ⟨rfl, rfl, rfl, hend⟩
    obtain ⟨ps, s₃, hparams, h⟩ := bind_eq_some.1 hsignature
    obtain ⟨rs, s₄, hresults, h⟩ := bind_eq_some.1 h
    obtain ⟨hpair, rfl⟩ := pure_eq_some.1 h
    obtain ⟨rfl, rfl⟩ := Prod.mk.inj hpair
    obtain rfl := results_none hresults
    rcases hbody with ⟨stmts, s₅, u, hstmts, hblock, hsemicolon⟩ | ⟨hnone, -⟩
    · obtain rfl := Option.some.inj hstmts
      rcases endStatement_eq_some hsemicolon with ⟨written, hs₅⟩ | ⟨hclosing, rfl⟩
      · refine ⟨written, ?_⟩
        rw [params_nil hparams, block_nil hblock, hs₅, hend]
      · obtain ⟨t, -, ht⟩ := hclosing
        simp [hend] at ht
    · cases hnone
  · rintro ⟨written, htokens⟩
    obtain ⟨tokens, level⟩ := s₁
    obtain rfl : tokens = _ := htokens
    have hempty : (ofDepth (n + 1)).signature ⟨[.lparen, .rparen, .lbrace, .rbrace, .semicolon written], level⟩ =
      some (([], Option.none), ⟨[.lbrace, .rbrace, .semicolon written], level⟩) := rfl
    obtain ⟨hpair, rfl⟩ := Prod.mk.inj (Option.some.inj (hempty.symm.trans hsignature))
    obtain ⟨rfl, rfl⟩ := Prod.mk.inj hpair
    rcases hbody with ⟨stmts, s₅, u, rfl, hblock, hsemicolon⟩ | ⟨-, hnext⟩
    · obtain ⟨rfl, rfl⟩ := Prod.mk.inj (Option.some.inj ((block_empty _ level).symm.trans hblock))
      rcases endStatement_eq_some hsemicolon with ⟨_, hs₅⟩ | ⟨⟨t, ht, hhead⟩, -⟩
      · exact ⟨rfl, rfl, rfl, (List.cons.inj hs₅).2.symm⟩
      · obtain rfl := Option.some.inj hhead
        simp at ht
    · exact absurd rfl (isNext_false hnext)

/-- Declarations up to the end of a file, the first of which is a function. -/
theorem decls_eq_some {ds : List Decl} {ts : List Token}
    (h : repeatWhile (return (← peek).isSome) r.decl s = some (ds, s')) (hs : s.tokens = .keyword "func" :: ts)
    (hend : s'.tokens = []) :
    ∃ d rest s₁ s₂, ds = d :: rest ∧ s₁.tokens = ts ∧ r.funcDecl s₁ = some (d, s₂) ∧ (rest = [] ↔ s₂.tokens = []) := by
  have hmore : ∀ {s s' : Source} {a : Bool}, (do return (← peek).isSome : Parse Bool) s = some (a, s') →
      s' = s ∧ a = s.tokens.head?.isSome := by
    intro s s' a h
    obtain ⟨rfl, rfl⟩ := pure_eq_some.1 h
    exact ⟨rfl, rfl⟩
  rcases repeatWhile_cases h with ⟨-, hstop⟩ | ⟨m, d, rest, s₁, s₂, rfl, hgoes, hd, hgo⟩
  · have hsome := (hmore hstop).2
    rw [hs] at hsome
    cases hsome
  · obtain rfl := (hmore hgoes).1
    obtain ⟨word, s₃, hword, hd⟩ := bind_eq_some.1 hd
    rcases accept_eq_some hword with ⟨rfl, htokens⟩ | ⟨-, -, hne⟩
    · refine ⟨d, rest, s₃, s₂, rfl, (List.cons.inj (htokens.symm.trans hs)).2, hd, ?_⟩
      rcases repeatWhile_go_cases hgo with ⟨rfl, hstop⟩ | ⟨_, _, _, _, _, rfl, hgoes, -⟩
      · rw [← (hmore hstop).1, hend]
        exact ⟨fun _ => rfl, fun _ => rfl⟩
      · have hsome := (hmore hgoes).2
        refine ⟨nofun, fun hnil => ?_⟩
        rw [hnil] at hsome
        cases hsome
    · exact absurd (hs ▸ rfl) hne

end Rules

/-- The signature of a text that is read as a function type. -/
theorem exists_signature {t : Text} {ts : List Token} {ps : List Field} {rs : Option (List Field)}
    (htokens : tokens? t = some (.keyword "func" :: ts)) (h : parseExpr? t = some (.func ps rs)) :
    ∃ n s, (Rules.ofDepth (n + 1)).signature { tokens := ts } = some ((ps, rs), s) ∧
      (s.tokens = [] ∨ s.tokens = [.semicolon false]) := by
  obtain ⟨ts', hts', h⟩ := Option.bind_eq_some_iff.1 h
  obtain rfl := Option.some.inj (htokens.symm.trans hts')
  obtain ⟨⟨x, s⟩, hx, h⟩ := Option.bind_eq_some_iff.1 h
  obtain ⟨n, hn⟩ : ∃ n, 8 * ((Token.keyword "func" :: ts).length + 2) = n + 3 := ⟨8 * ts.length + 21, by simp; omega⟩
  rw [hn] at hx
  obtain ⟨y, s₁, hy, hx⟩ := bind_eq_some.1 hx
  obtain ⟨semicolon, s₂, hsemicolon, hx⟩ := bind_eq_some.1 hx
  obtain ⟨rfl, rfl⟩ := pure_eq_some.1 hx
  dsimp only at h
  split at h
  · rename_i hempty
    obtain rfl := Option.some.inj h
    refine ⟨n, s₁, Rules.anyExpr_func hy, ?_⟩
    rcases accept_eq_some hsemicolon with ⟨-, htokens⟩ | ⟨-, rfl, -⟩
    · rw [htokens, List.isEmpty_iff.1 hempty]
      exact .inr rfl
    · exact .inl (List.isEmpty_iff.1 hempty)
  · cases h

/-- The type parameters in a file that begins with a function.  Nothing but the type parameters is declared exactly if
an empty function follows them. -/
theorem exists_typeParams {t package name : Text} {ts : List Token} {f : File} {written : Bool}
    (htokens : tokens? t =
      some (.keyword "package" :: .ident package :: .semicolon written ::
        .keyword "func" :: .ident name :: .lbrack :: ts))
    (h : parseFile? t = some f) :
    ∃ n fields s₀ s ps rs body decls, s₀.tokens = .lbrack :: ts ∧
      (Rules.ofDepth (n + 1)).typeParams s₀ = some (fields, s) ∧
      f = ⟨package, .func none name fields ps rs body :: decls⟩ ∧
      (ps = [] ∧ rs = none ∧ body = some [] ∧ decls = [] ↔
        ∃ written, s.tokens = [.lparen, .rparen, .lbrace, .rbrace, .semicolon written]) := by
  obtain ⟨ts', hts', h⟩ := Option.bind_eq_some_iff.1 (Option.filter_eq_some_iff.1 h).1
  obtain rfl := Option.some.inj (htokens.symm.trans hts')
  obtain ⟨⟨x, s'⟩, hx, h⟩ := Option.bind_eq_some_iff.1 h
  obtain ⟨n, hn⟩ : ∃ n, 8 * ((Token.keyword "package" :: .ident package :: .semicolon written :: .keyword "func" ::
      .ident name :: .lbrack :: ts).length + 2) = n + 1 := ⟨8 * ts.length + 63, by simp; omega⟩
  rw [hn] at hx
  obtain ⟨_, s₁, h₁, hx⟩ := bind_eq_some.1 hx
  obtain ⟨package', s₂, h₂, hx⟩ := bind_eq_some.1 hx
  obtain ⟨_, s₃, h₃, hx⟩ := bind_eq_some.1 hx
  obtain ⟨imports, s₄, h₄, hx⟩ := bind_eq_some.1 hx
  obtain ⟨decls, s₅, h₅, hx⟩ := bind_eq_some.1 hx
  obtain ⟨rfl, rfl⟩ := pure_eq_some.1 hx
  have hs₁ := (List.cons.inj (expect_eq_some h₁)).2
  obtain ⟨hpackage, hs₂⟩ := List.cons.inj (hs₁.trans (ident_eq_some h₂))
  obtain rfl := Token.ident.inj hpackage
  have hs₃ : s₃.tokens = .keyword "func" :: .ident name :: .lbrack :: ts := by
    rcases endStatement_eq_some h₃ with ⟨_, h⟩ | ⟨⟨t, ht, hhead⟩, -⟩
    · exact (List.cons.inj (hs₂.trans h)).2.symm
    · obtain rfl : Token.semicolon written = t := Option.some.inj (by rw [← hhead, ← hs₂]; rfl)
      simp at ht
  dsimp only at h
  split at h
  · rename_i hempty
    obtain rfl := Option.some.inj h
    rcases repeatWhile_cases h₄ with ⟨rfl, himport⟩ | ⟨_, _, _, _, _, -, himport, -⟩
    · rcases accept_eq_some himport with ⟨hfalse, -⟩ | ⟨-, rfl, -⟩
      · cases hfalse
      obtain ⟨d, decls, s₆, s₇, rfl, hs₆, hd, hlast⟩ := Rules.decls_eq_some h₅ hs₃ (List.isEmpty_iff.1 hempty)
      obtain ⟨fields, ps, rs, body, s₈, s₉, s₁₀, rfl, hs₈, hfields, hsignature, hbody⟩ := Rules.funcDecl_eq_some hd hs₆
      refine ⟨n, fields, s₈, s₉, ps, rs, body, decls, hs₈, hfields, rfl, ?_⟩
      rw [hlast]
      exact Rules.empty_tail hsignature hbody
    · rcases accept_eq_some himport with ⟨-, himport⟩ | ⟨hfalse, -⟩
      · obtain ⟨hword, -⟩ := List.cons.inj (hs₃.symm.trans himport)
        simp at hword
      · cases hfalse
  · cases h

end MeaningForest.Host

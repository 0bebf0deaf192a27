import MeaningForest.Host.Grammar.Statements

/-!
# Brackets that rules take

`unclosed` tells which brackets are open after some tokens, if no bracket closes another than the last open one.
`Parse.Moves b c p` says that the tokens that the rule `p` takes lead from the open brackets `b` to `c`.  The rules for
`pure` and `bind` and those for the parts of the grammar let one follow a rule line by line: what an opening bracket
adds the closing one takes away.
-/

namespace MeaningForest.Host

namespace Token

/-- Closes the last open bracket, if it waits for this token. -/
def close (t : Token) : List Token → Option (List Token)
  | [] => none
  | c :: open_ => if c = t then some open_ else none

/-- The brackets that are open after a token, each told by the token that closes it, the last one first. -/
def after (t : Token) (open_ : List Token) : Option (List Token) :=
  match t with
  | lparen => some (rparen :: open_)
  | lbrack => some (rbrack :: open_)
  | lbrace => some (rbrace :: open_)
  | rparen => close rparen open_
  | rbrack => close rbrack open_
  | rbrace => close rbrace open_
  | _ => some open_

end Token

/-- The brackets that are open after some tokens; none if one of them closes what was not opened last. -/
def unclosed (open_ : List Token) (ts : List Token) : Option (List Token) := ts.foldlM (fun o t => t.after o) open_

theorem unclosed_append (b : List Token) (us vs : List Token) :
    unclosed b (us ++ vs) = (unclosed b us).bind fun c => unclosed c vs := List.foldlM_append ..

theorem unclosed_singleton (b : List Token) (t : Token) : unclosed b [t] = t.after b := by
  rw [unclosed, List.foldlM_cons]
  cases t.after b <;> rfl

theorem unclosed_cons (b : List Token) (t : Token) (ts : List Token) :
    unclosed b (t :: ts) = (t.after b).bind fun c => unclosed c ts := List.foldlM_cons ..

namespace Parse

variable {α β : Type}

theorem bind_eq (p : Parse α) (f : α → Parse β) (s : Source) : (p >>= f) s = (p s).bind fun x => f x.1 x.2 := rfl

theorem bind_eq_some {p : Parse α} {f : α → Parse β} {s s' : Source} {b : β} :
    (p >>= f) s = some (b, s') ↔ ∃ a s₁, p s = some (a, s₁) ∧ f a s₁ = some (b, s') := by
  rw [bind_eq, Option.bind_eq_some_iff]
  exact ⟨fun ⟨x, hx, hf⟩ => ⟨x.1, x.2, hx, hf⟩, fun ⟨a, s₁, hx, hf⟩ => ⟨(a, s₁), hx, hf⟩⟩

theorem pure_eq_some {a x : α} {s s' : Source} : (Pure.pure a : Parse α) s = some (x, s') ↔ a = x ∧ s = s' :=
  ⟨fun h => Prod.mk.inj (Option.some.inj h), fun ⟨ha, hs⟩ => ha ▸ hs ▸ rfl⟩

/-- A rule that does not advance, and that holds only if the next token satisfies `P`. -/
def Looks (P : Token → Prop) (p : Parse Bool) : Prop :=
  ∀ s a s', p s = some (a, s') → s' = s ∧ (a = true → ∃ t, s.tokens.head? = some t ∧ P t)

/-- The tokens that a rule takes lead from the open brackets `b` to `c`, if the next token is `o`. -/
def MovesAt (o : Option Token) (b c : List Token) (p : Parse α) : Prop :=
  ∀ s a s', s.tokens.head? = o → p s = some (a, s') → ∃ ts, s.tokens = ts ++ s'.tokens ∧ unclosed b ts = some c

/-- The tokens that a rule takes lead from the open brackets `b` to `c`. -/
def Moves (b c : List Token) (p : Parse α) : Prop := ∀ o, MovesAt o b c p

/-- The brackets in what a rule takes belong together. -/
def Keeps (p : Parse α) : Prop := ∀ b, Moves b b p

namespace Looks

variable {P : Token → Prop} {p : Parse Bool}

theorem exists_of_bind (h : Looks P p) {f : Bool → Parse α} {s s' : Source} {x : α}
    (hx : (p >>= f) s = some (x, s')) : ∃ a, p s = some (a, s) ∧ f a s = some (x, s') := by
  obtain ⟨a, s₁, ha, hf⟩ := bind_eq_some.1 hx
  obtain ⟨rfl, -⟩ := h s a s₁ ha
  exact ⟨a, ha, hf⟩

theorem isNext (t : Token) : Looks (· = t) (isNext t) := by
  intro s a s' h
  obtain ⟨rfl, rfl⟩ := pure_eq_some.1 h
  exact ⟨rfl, fun ha => ⟨t, by simpa using ha, rfl⟩⟩

theorem isNextOf (ts : List Token) : Looks (· ∈ ts) (isNextOf ts) := by
  rintro ⟨tokens, level⟩ a s' h
  cases tokens with
  | nil =>
    obtain ⟨rfl, rfl⟩ := pure_eq_some.1 h
    exact ⟨rfl, fun ha => nomatch ha⟩
  | cons t tokens =>
    obtain ⟨rfl, rfl⟩ := pure_eq_some.1 h
    exact ⟨rfl, fun ha => ⟨t, rfl, List.contains_iff_mem.1 ha⟩⟩

theorem isSemicolon : Looks (fun t => ∃ written, t = .semicolon written) isSemicolon := by
  intro s a s' h
  obtain ⟨hs, ha⟩ := isNextOf _ s a s' h
  refine ⟨hs, fun h => ?_⟩
  obtain ⟨t, ht, hmem⟩ := ha h
  simp only [List.mem_cons, List.not_mem_nil, or_false] at hmem
  exact ⟨t, ht, hmem.elim (fun h => ⟨_, h⟩) fun h => ⟨_, h⟩⟩

theorem isIdent : Looks (fun t => ∃ name, t = .ident name) isIdent := by
  rintro ⟨tokens, level⟩ a s' h
  cases tokens with
  | nil =>
    obtain ⟨rfl, rfl⟩ := pure_eq_some.1 h
    exact ⟨rfl, fun ha => nomatch ha⟩
  | cons t tokens =>
    cases t with
    | ident name =>
      obtain ⟨rfl, rfl⟩ := pure_eq_some.1 h
      exact ⟨rfl, fun _ => ⟨_, rfl, name, rfl⟩⟩
    | _ =>
      obtain ⟨rfl, rfl⟩ := pure_eq_some.1 h
      exact ⟨rfl, fun ha => nomatch ha⟩

theorem atComma (closing : Token) : Looks (· = .comma) (atComma closing) := by
  intro s a s' h
  obtain ⟨comma, hcomma, hrest⟩ := (isNext .comma).exists_of_bind h
  cases comma with
  | true =>
    obtain ⟨rfl, rfl⟩ := pure_eq_some.1 hrest
    exact ⟨rfl, (isNext .comma s true s hcomma).2⟩
  | false =>
    obtain ⟨last, -, hend⟩ := (isNext closing).exists_of_bind hrest
    cases last with
    | true =>
      obtain ⟨rfl, rfl⟩ := pure_eq_some.1 hend
      exact ⟨rfl, fun ha => nomatch ha⟩
    | false => cases hend

/-- A look with a further condition on the state. -/
theorem and_get (h : Looks P p) (g : Source → Bool) : Looks P (do return (← p) && g (← get)) := by
  intro s a s' ha
  obtain ⟨x, hx, hrest⟩ := h.exists_of_bind ha
  obtain ⟨rfl, rfl⟩ := pure_eq_some.1 hrest
  exact ⟨rfl, fun hand => (h s x s hx).2 (Bool.and_eq_true_iff.1 hand).1⟩

theorem keeps (h : Looks P p) : Keeps p := fun _ _ s a s' _ hp => by
  obtain ⟨rfl, -⟩ := h s a s' hp
  exact ⟨[], rfl, rfl⟩

end Looks

variable {o : Option Token} {b c d : List Token} {t : Token} {p q : Parse α} {f : α → Parse β}

namespace MovesAt

theorem bind (hp : MovesAt o b c p) (hf : ∀ a, Moves c d (f a)) : MovesAt o b d (p >>= f) := by
  intro s x s' ho h
  obtain ⟨a, s₁, ha, hx⟩ := bind_eq_some.1 h
  obtain ⟨us, hus, hbc⟩ := hp s a s₁ ho ha
  obtain ⟨vs, hvs, hcd⟩ := hf a _ s₁ x s' rfl hx
  refine ⟨us ++ vs, by rw [hus, hvs, List.append_assoc], ?_⟩
  rw [unclosed_append, hbc, Option.bind_some, hcd]

theorem advance (h : t.after b = some c) : MovesAt (some t) b c advance := by
  rintro ⟨tokens, level⟩ a s' ho hs
  obtain ⟨-, rfl⟩ := pure_eq_some.1 hs
  obtain ⟨ts, rfl⟩ := List.head?_eq_some_iff.1 ho
  exact ⟨[t], rfl, (unclosed_singleton b t).trans h⟩

theorem nested (hp : MovesAt o b c p) : MovesAt o b c (nested p) := by
  intro s x s' ho h
  obtain ⟨a, s₁, ha, hx⟩ := bind_eq_some.1 h
  obtain ⟨-, rfl⟩ := pure_eq_some.1 ha
  obtain ⟨y, s₂, hy, hx⟩ := bind_eq_some.1 hx
  obtain ⟨ts, hts, hbc⟩ := hp { s with level := s.level + 1 } y s₂ ho hy
  obtain ⟨-, rfl⟩ := pure_eq_some.1 hx
  exact ⟨ts, hts, hbc⟩

end MovesAt

namespace Moves

theorem pure {a : α} : Moves b b (Pure.pure a) := by
  intro _ s x s' _ h
  obtain ⟨-, rfl⟩ := pure_eq_some.1 h
  exact ⟨[], rfl, rfl⟩

theorem failure : Moves b c (failure : Parse α) := fun _ _ _ _ _ h => nomatch h

theorem bind (hp : Moves b c p) (hf : ∀ a, Moves c d (f a)) : Moves b d (p >>= f) := fun o => (hp o).bind hf

/-- What stands behind a failure does not matter. -/
theorem failure_bind : Moves b c ((Alternative.failure : Parse α) >>= f) := fun _ _ _ _ _ h => nomatch h

theorem map {g : α → β} (hp : Moves b c p) : Moves b c (g <$> p) := by
  intro o s x s' ho h
  rw [map_eq_pure_bind] at h
  exact (hp o).bind (fun _ => pure) s x s' ho h

theorem ite {P : Prop} [Decidable P] (hp : P → Moves b c p) (hq : ¬P → Moves b c q) :
    Moves b c (if P then p else q) := by
  split
  · exact hp ‹_›
  · exact hq ‹_›

/-- The branches of what is done after a look at the next token. -/
theorem peek {f : Option Token → Parse β} (hf : ∀ o, MovesAt o b c (f o)) : Moves b c (peek >>= f) :=
  fun _ s x s' _ h => hf _ s x s' rfl h

theorem look {P : Token → Prop} {cond : Parse Bool} (hcond : Looks P cond) (hp : ∀ t, P t → MovesAt (some t) b c p)
    (hq : Moves b c q) : Moves b c (do if ← cond then p else q) := by
  intro _ s x s' _ h
  obtain ⟨a, ha, hx⟩ := hcond.exists_of_bind h
  cases a with
  | true =>
    obtain ⟨t, ht, hP⟩ := (hcond s true s ha).2 rfl
    exact hp t hP s x s' ht hx
  | false => exact hq _ s x s' rfl hx

theorem cond {look : Parse Bool} (hlook : Keeps look) (hp : Moves b c p) (hq : Moves b c q) :
    Moves b c (do if ← look then p else q) :=
  bind (hlook b) fun _ => ite (fun _ => hp) fun _ => hq

theorem expect (h : t.after b = some c) : Moves b c (expect t) :=
  look (Looks.isNext t) (by rintro _ rfl; exact .advance h) failure

theorem accept (h : t.after b = some c) (hp : Moves c d p) (hq : Moves b d q) :
    Moves b d (do if ← accept t then p else q) := by
  intro o s x s' _ hs
  obtain ⟨a, s₁, ha, hx⟩ := bind_eq_some.1 hs
  obtain ⟨next, hnext, hrest⟩ := (Looks.isNext t).exists_of_bind ha
  cases next with
  | true =>
    obtain ⟨_, ht, rfl⟩ := (Looks.isNext t s true s hnext).2 rfl
    obtain ⟨u, s₂, hadvance, htrue⟩ := bind_eq_some.1 hrest
    obtain ⟨rfl, rfl⟩ := pure_eq_some.1 htrue
    exact (MovesAt.advance h).bind (fun _ => hp) s x s' ht (bind_eq_some.2 ⟨u, s₂, hadvance, hx⟩)
  | false =>
    obtain ⟨rfl, rfl⟩ := pure_eq_some.1 hrest
    exact hq _ s x s' rfl hx

theorem nested (hp : Moves b c p) : Moves b c (nested p) := fun o => (hp o).nested

theorem inHead (hp : Moves b c p) : Moves b c (inHead p) := by
  intro o s x s' ho h
  obtain ⟨y, s₂, hy, hx⟩ := bind_eq_some.1 (show (do
    let a ← p
    modify fun s' => { s' with level := s.level }
    return a : Parse α) { s with level := -1 } = some (x, s') from h)
  obtain ⟨ts, hts, hbc⟩ := hp o { s with level := -1 } y s₂ ho hy
  obtain ⟨-, rfl⟩ := pure_eq_some.1 hx
  exact ⟨ts, hts, hbc⟩

end Moves

namespace Keeps

theorem pure {a : α} : Keeps (Pure.pure a) := fun _ => .pure

theorem failure : Keeps (failure : Parse α) := fun _ => .failure

theorem bind (hp : Keeps p) (hf : ∀ a, Keeps (f a)) : Keeps (p >>= f) := fun b => (hp b).bind fun a => hf a b

theorem get : Keeps get := fun _ _ s _ s' _ h => by
  obtain ⟨-, rfl⟩ := pure_eq_some.1 h
  exact ⟨[], rfl, rfl⟩

theorem peek : Keeps peek := get.bind fun _ => pure

theorem bound : Keeps bound := get.bind fun _ => pure

theorem accept (h : ∀ b, t.after b = some b) : Keeps (accept t) := fun b =>
  .look (.isNext t) (by rintro _ rfl; exact (MovesAt.advance (h b)).bind fun _ => .pure) .pure

theorem ident : Keeps ident := fun b => .peek fun o => by
  split
  · exact (MovesAt.advance rfl).bind fun _ => .pure
  · exact Moves.failure _

theorem endStatement : Keeps endStatement := fun b =>
  .cond (Looks.isNextOf _).keeps .pure
    (.look .isSemicolon (by rintro _ ⟨written, rfl⟩; exact .advance rfl) .failure)

/-! ### Lists -/

theorem repeatSome {item : Parse (Option α)} (h : Keeps item) : Keeps (repeatSome item) := by
  have hgo : ∀ n, Keeps (repeatSome.go item n) := by
    intro n
    induction n with
    | zero => exact failure
    | succ n ih =>
      refine h.bind fun a => ?_
      cases a with
      | some a => exact ih.bind fun _ => pure
      | none => exact pure
  exact get.bind fun s => hgo _

theorem repeatWhile {more : Parse Bool} {item : Parse α} (hmore : Keeps more) (hitem : Keeps item) :
    Keeps (repeatWhile more item) :=
  repeatSome fun b => .cond hmore ((hitem b).bind fun _ => .pure) .pure

/-- Items that start with a token that was looked at. -/
theorem repeatWhile_looks {P : Token → Prop} {more : Parse Bool} {item : Parse α} (hmore : Looks P more)
    (hitem : ∀ b t, P t → MovesAt (some t) b b item) : Keeps (Parse.repeatWhile more item) :=
  repeatSome fun b => .look hmore (fun t ht => (hitem b t ht).bind fun _ => .pure) .pure

theorem commaList {item : Parse α} (closing : Token) (h : Keeps item) : Keeps (commaList closing item) :=
  repeatWhile ((Looks.isNext closing).keeps.bind fun _ => pure) <| h.bind fun _ b =>
    .look (.atComma closing) (by rintro _ rfl; exact (MovesAt.advance rfl).bind fun _ => .pure) .pure

theorem commaSeparated {item : Parse α} (h : Keeps item) : Keeps (commaSeparated item) := by
  refine h.bind fun _ => (repeatWhile_looks (.isNext .comma) ?_).bind fun _ => pure
  rintro b _ rfl
  exact (MovesAt.advance rfl).bind fun _ => h b

end Keeps

end Parse

end MeaningForest.Host

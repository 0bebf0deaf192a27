import MeaningForest.Proofs.Identifiers
import MeaningForest.Proofs.Signatures

/-!
# Parameters of host code

A parameter list is read as a list of parameters, each with its own type; names that share a type are told apart.  A
signature keeps the names and the normal forms of the types.

* `Host.spelled_of_parse`: the names of parameters are identifiers, and of their types exactly the variadic ones have a
  normal form that starts with a dot.
* `Signature.exists_describes`: a signature without unnamed parameters describes the list it was read from.
-/

namespace MeaningForest

namespace Host

open Parse

/-- The names among the tokens that are left are identifiers. -/
def Source.Spelled (s : Source) : Prop := ∀ name, Token.ident name ∈ s.tokens → IsName name

/-! ### What rules give -/

namespace Parse

variable {α β : Type}

theorem Keeps.spelled {p : Parse α} (hp : Keeps p) {s s' : Source} {a : α} (hs : s.Spelled) (h : p s = some (a, s')) :
    s'.Spelled := by
  obtain ⟨ts, hts, -⟩ := hp [] _ s a s' rfl h
  exact fun name hname => hs name (hts ▸ List.mem_append_right ts hname)

/-- Where names are identifiers, what a rule gives satisfies `Q`, and names are still identifiers after it. -/
def Spells (Q : α → Prop) (p : Parse α) : Prop := ∀ s a s', s.Spelled → p s = some (a, s') → Q a ∧ s'.Spelled

namespace Spells

variable {Q : α → Prop} {p q : Parse α}

theorem of_gives (hp : Keeps p) (hq : Gives Q p) : Spells Q p := fun _ _ _ hs h => ⟨hq _ _ _ h, hp.spelled hs h⟩

theorem pure {a : α} (h : Q a) : Spells Q (Pure.pure a) := of_gives .pure (.pure h)

theorem failure : Spells Q (Alternative.failure : Parse α) := fun _ _ _ _ h => nomatch h

theorem bind {R : β → Prop} {p : Parse β} {f : β → Parse α} (hp : Spells R p) (hf : ∀ b, R b → Spells Q (f b)) :
    Spells Q (p >>= f) := by
  intro s x s' hs hx
  obtain ⟨b, s₁, hb, hx⟩ := bind_eq_some.1 hx
  obtain ⟨hR, hs₁⟩ := hp s b s₁ hs hb
  exact hf b hR s₁ x s' hs₁ hx

theorem bind_any {p : Parse β} {f : β → Parse α} (hp : Keeps p) (hf : ∀ b, Spells Q (f b)) : Spells Q (p >>= f) :=
  bind (of_gives (Q := fun _ => True) hp fun _ _ _ _ => trivial) fun b _ => hf b

theorem ite {P : Prop} [Decidable P] (hp : P → Spells Q p) (hq : Spells Q q) : Spells Q (if P then p else q) := by
  split
  · exact hp ‹_›
  · exact hq

theorem ident : Spells IsName Parse.ident := fun _ name _ hs h =>
  ⟨hs name (ident_eq_some h ▸ List.mem_cons_self ..), Keeps.ident.spelled hs h⟩

theorem advance : Spells (fun _ => True) Parse.advance := by
  intro s a s' hs h
  obtain ⟨-, rfl⟩ := pure_eq_some.1 h
  exact ⟨trivial, fun name hname => hs name (List.mem_of_mem_drop hname)⟩

theorem repeatSome {item : Parse (Option α)} (h : Spells (∀ a ∈ ·, Q a) item) :
    Spells (∀ a ∈ ·, Q a) (Parse.repeatSome item) := by
  have hgo : ∀ n, Spells (∀ a ∈ ·, Q a) (Parse.repeatSome.go item n) := by
    intro n
    induction n with
    | zero => exact failure
    | succ n ih =>
      refine bind h fun a ha => ?_
      cases a with
      | none => exact pure fun a h => nomatch h
      | some a => exact bind ih fun as has => pure (List.forall_mem_cons.2 ⟨ha a rfl, has⟩)
  exact bind_any .get fun s => hgo _

theorem commaList {item : Parse α} (closing : Token) (h : Spells Q item) :
    Spells (∀ a ∈ ·, Q a) (Parse.commaList closing item) := by
  have hitem : Spells Q (do
      let a ← item
      if ← atComma closing then Parse.advance
      return a) := bind h fun a ha => bind_any (Looks.atComma closing).keeps fun _ =>
    ite (fun _ => bind advance fun _ _ => pure ha) (pure ha)
  refine repeatSome (bind_any ((Looks.isNext closing).keeps.bind fun _ => .pure) fun _ =>
    ite (fun _ => bind hitem fun a ha => pure fun x hx => ?_) (pure fun a h => nomatch h))
  exact Option.some.inj hx ▸ ha

end Spells

end Parse

/-! ### Types -/

namespace Expr

/-- A type that is not variadic, which its normal form shows. -/
def Plain (x : Expr) : Prop := x.isEllipsis = false ∧ x.render.head? ≠ some 0x2e

/-- The normal form of a type shows whether it is variadic. -/
def Marked (x : Expr) : Prop := x.isEllipsis = true ↔ x.render.head? = some 0x2e

theorem Plain.marked {x : Expr} (h : x.Plain) : x.Marked := by
  rw [Marked, h.1]
  exact iff_of_false Bool.false_ne_true h.2

theorem marked_ellipsis (elem : Option Expr) : (ellipsis elem).Marked := by
  rw [Marked, render]
  exact ⟨fun _ => rfl, fun _ => rfl⟩

theorem plain_ident {name : Text} (h : IsName name) : (ident name).Plain := by
  refine ⟨rfl, ?_⟩
  rw [render]
  exact h.head?_ne (by decide) (by decide)

/-- What is written behind a normal form does not change how it starts. -/
theorem Plain.of_append {x y : Expr} (hx : x.Plain) (hy : y.isEllipsis = false) {t : Text}
    (hrender : y.render = x.render ++ t) (ht : t.head? ≠ some 0x2e ∨ x.render ≠ []) : y.Plain := by
  refine ⟨hy, ?_⟩
  rw [hrender, List.head?_append]
  have hhead := hx.2
  cases h : x.render with
  | nil => simpa [h] using ht
  | cons b u => simpa [h] using hhead

/-- A type that starts with a mark or a word of its own. -/
def isCompound : Expr → Bool
  | paren _ | star _ | array .. | struct _ | func .. | interface _ | map .. | chan .. => true
  | _ => false

theorem plain_of_isCompound {x : Expr} (h : x.isCompound = true) : x.Plain := by
  cases x with
  | func params results =>
    cases results <;> exact ⟨rfl, by simp [render, Text.ofString, String.utf8EncodeChar]⟩
  | chan dir elem =>
    cases dir <;> exact ⟨rfl, by simp [render, Direction.mark, Text.ofString, String.utf8EncodeChar]⟩
  | paren | star | array | struct | interface | map =>
    exact ⟨rfl, by simp [render, Text.ofString, String.utf8EncodeChar]⟩
  | _ => cases h

end Expr

/-- A parameter that is named by an identifier, and the type of which shows whether it is variadic. -/
def Field.Spelled (f : Field) : Prop := (∀ name ∈ f.names, IsName name) ∧ f.type.Marked

namespace Rules

open Host.Expr

variable {r : Rules}

theorem namedTypeFrom_plain (r : Rules) {name : Text} (h : IsName name) : Gives Plain (r.namedTypeFrom name) := by
  have hname : Gives Plain (typeNameFrom name) := by
    refine .bind_any fun _ => .ite (.bind_any fun part => .pure ?_) (.pure (plain_ident h))
    obtain ⟨b, t, rfl, -⟩ := h.start
    exact (plain_ident h).of_append rfl (by simp [render] : _ = _ ++ ("." ++ part)) (.inr (by simp [render]))
  refine .bind hname fun x hx => .bind_any fun _ => .ite ?_ (.pure hx)
  refine .bind_any fun _ => .bind_any fun args => .bind_any fun _ => .ite .failure_bind (.pure ?_)
  exact hx.of_append rfl (by rw [render, List.append_assoc, List.append_assoc])
    (.inl (by simp [Text.ofString, String.utf8EncodeChar]))

/-- The types that the rule reads are not variadic.  Only that of a name depends on the token. -/
theorem typeRule_spells (h : r.Balanced) : Spells (∀ x ∈ ·, Plain x) r.typeRule := by
  intro s a s' hs hrun
  refine ⟨?_, h.typeRule.spelled hs hrun⟩
  have hsome : ∀ {x : Expr}, x.Plain → ∀ y ∈ some x, y.Plain := fun hx y hy => Option.some.inj hy ▸ hx
  have hafter : ∀ {p : Parse Expr}, Gives Plain p → Gives (∀ x ∈ ·, Plain x) (do advance; return some (← p)) :=
    fun hp => .bind_any fun _ => .bind hp fun _ hx => .pure (hsome hx)
  obtain ⟨o, s₁, ho, hrun⟩ := bind_eq_some.1 hrun
  obtain ⟨hhead, rfl⟩ := pure_eq_some.1 ho
  split at hrun
  · rename_i name
    obtain ⟨ts, hts⟩ := List.head?_eq_some_iff.1 hhead
    exact hafter (namedTypeFrom_plain r (hs name (hts ▸ List.mem_cons_self ..))) _ _ _ hrun
  · exact hafter (.bind_any fun _ => .bind_any fun _ => .bind_any fun _ => .pure (plain_of_isCompound rfl)) _ _ _ hrun
  · exact hafter (.bind_any fun _ => .bind_any fun _ => .bind_any fun _ => .pure (plain_of_isCompound rfl)) _ _ _ hrun
  · exact (.bind_any fun _ => .bind_any fun _ => .pure (hsome (plain_of_isCompound rfl)) :
      Gives (∀ x ∈ ·, Plain x) (do advance; return some (.star (← r.type)))) _ _ _ hrun
  · exact hafter (.bind_any fun _ => .pure (plain_of_isCompound rfl)) _ _ _ hrun
  · exact hafter (.bind_any fun _ => .bind_any fun _ => .bind_any fun _ => .pure (plain_of_isCompound rfl)) _ _ _ hrun
  · exact hafter (.bind_any fun _ => .bind_any fun _ => .bind_any fun _ => .bind_any fun _ =>
      .pure (plain_of_isCompound rfl)) _ _ _ hrun
  · refine (.bind_any fun _ => .bind_any fun _ => .ite ?_ ?_ : Gives (∀ x ∈ ·, Plain x) _) _ _ _ hrun
    · exact .bind_any fun _ => .pure (hsome (plain_of_isCompound rfl))
    · exact .bind_any fun _ => .pure (hsome (plain_of_isCompound rfl))
  · exact (.bind_any fun _ => .bind_any fun _ => .bind_any fun _ => .pure (hsome (plain_of_isCompound rfl)) :
      Gives (∀ x ∈ ·, Plain x) _) _ _ _ hrun
  · exact (.bind_any fun _ => .bind_any fun _ => .bind_any fun _ => .pure (hsome (plain_of_isCompound rfl)) :
      Gives (∀ x ∈ ·, Plain x) _) _ _ _ hrun
  · obtain ⟨rfl, -⟩ := pure_eq_some.1 hrun
    nofun

theorem type_spells : ∀ n, Spells Plain (ofDepth n).type
  | 0 => .failure
  | n + 1 => .bind (typeRule_spells (balanced_ofDepth n)) fun o ho => by
    cases o with
    | none => exact .failure
    | some t => exact .pure (ho t rfl)

/-! ### Entries -/

/-- The name of an entry is an identifier, and its type shows whether it is variadic. -/
def Entry.Spelled (e : Entry) : Prop := (∀ name ∈ e.name, IsName name) ∧ ∀ t ∈ e.type, Marked t

theorem dotsType_marked (r : Rules) : Gives Marked r.dotsType :=
  .bind_any fun _ => .bind_any fun _ => .pure (marked_ellipsis _)

theorem plain_instance {name : Text} (h : IsName name) (args : List Expr) : (index (.ident name) args).Plain :=
  (plain_ident h).of_append rfl (by simp [render] : _ = _ ++ ("[" ++ renderList args ++ "]"))
    (.inl (by simp [Text.ofString, String.utf8EncodeChar]))

theorem arrayOrInstance_gives (r : Rules) {name : Text} (h : IsName name) :
    Gives (fun p => (∀ name ∈ p.1, IsName name) ∧ Plain p.2) (r.arrayOrInstance name) := by
  have hname : ∀ n ∈ some name, IsName n := fun n hn => Option.some.inj hn ▸ h
  have harray : ∀ length elem, (∀ n ∈ some name, IsName n) ∧ Plain (array length elem) :=
    fun length elem => ⟨hname, plain_of_isCompound rfl⟩
  have hinstance : ∀ args, (∀ n ∈ (Option.none : Option Text), IsName n) ∧ Plain (index (.ident name) args) :=
    fun args => ⟨nofun, plain_instance h args⟩
  refine .bind_any fun _ => .bind_any fun (args, trailing) => .bind_any fun _ => ?_
  rcases args with _ | ⟨x, _ | ⟨y, args⟩⟩
  · exact .bind_any fun _ => .pure (harray _ _)
  · refine .bind_any fun elem => ?_
    cases elem with
    | none => exact .pure (hinstance _)
    | some elem => exact .ite .failure (.pure (harray _ _))
  · exact .pure (hinstance _)

theorem entryFrom_spells (n : Nat) {name : Text} (h : IsName name) :
    Spells Entry.Spelled ((ofDepth n).entryFrom false name) := by
  have hb := balanced_ofDepth n
  have hname : ∀ n ∈ some name, IsName n := fun n hn => Option.some.inj hn ▸ h
  have hentry : ∀ {o : Option Text} {t : Expr}, (∀ n ∈ o, IsName n) → t.Marked → Entry.Spelled ⟨o, some t⟩ :=
    fun ho ht => ⟨ho, fun x hx => Option.some.inj hx ▸ ht⟩
  -- no union is read outside of type parameters
  have hclose : ∀ {o : Option Text} {t : Expr}, Entry.Spelled ⟨o, some t⟩ → Spells Entry.Spelled (do
      if false && (← isNext (.op "|")) then return ⟨o, some (← (ofDepth n).unionFrom t)⟩
      else return ⟨o, some t⟩ : Parse Entry) := fun he =>
    .bind_any (Looks.isNext _).keeps fun _ => .ite (fun h => absurd h Bool.false_ne_true) (.pure he)
  refine .bind_any Balanced.atParamType fun _ => .ite (fun _ => .bind (type_spells n) fun t ht =>
    hclose (hentry hname ht.marked)) ?_
  refine .bind_any (Looks.isNext _).keeps fun _ => .ite (fun _ => .bind (.of_gives (hb.arrayOrInstance name)
    (arrayOrInstance_gives _ h)) fun p hp => hclose (hentry hp.1 hp.2.marked)) ?_
  refine .bind_any (Looks.isNext _).keeps fun _ => .ite (fun _ => .bind (.of_gives hb.dotsType (dotsType_marked _))
    fun t ht => .pure (hentry hname ht)) ?_
  refine .bind_any (Looks.isNext _).keeps fun _ => .ite (fun _ => .bind (.of_gives (hb.namedTypeFrom name)
    (namedTypeFrom_plain _ h)) fun t ht => hclose (hentry (by simp) ht.marked)) ?_
  refine .bind_any (Looks.isNext _).keeps fun _ => .ite (fun h => absurd h Bool.false_ne_true) ?_
  exact .bind_any (Looks.isNext _).keeps fun _ => .ite (fun h => absurd h Bool.false_ne_true) (.pure ⟨hname, by simp⟩)

theorem entry_spells (n : Nat) : Spells Entry.Spelled ((ofDepth n).entry false) := by
  have hb := balanced_ofDepth n
  have hentry : ∀ {t : Expr}, t.Marked → Entry.Spelled ⟨Option.none, some t⟩ :=
    fun ht => ⟨by simp, fun x hx => Option.some.inj hx ▸ ht⟩
  refine .bind_any (Looks.isNext _).keeps fun _ => .ite (fun h => absurd h Bool.false_ne_true) ?_
  refine .bind_any Looks.isIdent.keeps fun _ => .ite (fun _ => .bind .ident fun name hname =>
    entryFrom_spells n hname) ?_
  refine .bind_any (Looks.isNext _).keeps fun _ => .ite (fun _ => .bind (.of_gives hb.dotsType (dotsType_marked _))
    fun t ht => .pure (hentry ht)) ?_
  refine .bind_any Balanced.atParamType fun _ => .bind_any (Looks.isNext _).keeps fun _ => .ite (fun _ => ?_) .failure
  exact .bind (type_spells n) fun t ht => .bind_any (Looks.isNext _).keeps fun _ =>
    .ite (fun h => absurd h Bool.false_ne_true) (.pure (hentry ht.marked))

/-! ### Fields -/

theorem spelled_unnamedFields {es : List Entry} (h : ∀ e ∈ es, e.Spelled) : ∀ f ∈ unnamedFields es, f.Spelled := by
  intro f hf
  obtain ⟨⟨name, type⟩, he, hf⟩ := List.mem_filterMap.1 hf
  obtain ⟨hname, htype⟩ := h _ he
  dsimp only at hf hname htype
  split at hf
  · rename_i n
    obtain rfl := Option.some.inj hf
    exact ⟨nofun, (plain_ident (hname n rfl)).marked⟩
  · rename_i t
    obtain rfl := Option.some.inj hf
    exact ⟨nofun, htype t rfl⟩
  · cases hf

theorem spelled_namedFields {es : List Entry} (h : ∀ e ∈ es, e.Spelled) {fields : List Field}
    (hfields : namedFields es = some fields) : ∀ f ∈ fields, f.Spelled := by
  induction es generalizing fields with
  | nil =>
    obtain rfl := Option.some.inj hfields
    nofun
  | cons e es ih =>
    obtain ⟨⟨hname, htype⟩, hes⟩ := List.forall_mem_cons.1 h
    obtain ⟨_ | n, _ | t⟩ := e
    · cases hfields
    · cases hfields
    · -- the name shares the type of the next field
      rw [namedFields] at hfields
      split at hfields
      · rename_i ns t fs hrest
        obtain rfl := Option.some.inj hfields
        obtain ⟨⟨hns, ht⟩, hfs⟩ := List.forall_mem_cons.1 (ih hes hrest)
        exact List.forall_mem_cons.2 ⟨⟨List.forall_mem_cons.2 ⟨hname n rfl, hns⟩, ht⟩, hfs⟩
      · cases hfields
    · rw [namedFields, Option.map_eq_some_iff] at hfields
      obtain ⟨fs, hrest, rfl⟩ := hfields
      exact List.forall_mem_cons.2 ⟨⟨List.forall_mem_singleton.2 (hname n rfl), htype t rfl⟩, ih hes hrest⟩

theorem spelled_fieldsOf? {es : List Entry} (h : ∀ e ∈ es, e.Spelled) {variadic : Bool} {fields : List Field}
    (hfields : fieldsOf? false variadic es = some fields) : ∀ f ∈ fields, f.Spelled := by
  rw [fieldsOf?] at hfields
  split at hfields
  · cases hfields
  · dsimp only at hfields
    split at hfields
    · obtain ⟨fs, hfs, hend⟩ := Option.bind_eq_some_iff.1 hfields
      obtain rfl := Option.some.inj (Option.ite_none_right_eq_some.1 hend).2
      exact spelled_namedFields h hfs
    · obtain rfl := Option.some.inj (Option.ite_none_right_eq_some.1 hfields).2
      exact spelled_unnamedFields h

theorem params_spells (n : Nat) (variadic : Bool) : Spells (∀ f ∈ ·, f.Spelled) ((ofDepth n).params variadic) := by
  have hexpect : ∀ t, Spells (fun _ => True) (expect t) := fun t =>
    .bind_any (Looks.isNext t).keeps fun _ => .ite (fun _ => .advance) .failure
  refine .bind (hexpect _) fun _ _ => .bind (.commaList .rparen (entry_spells n)) fun es hes =>
    .bind (hexpect _) fun _ _ => ?_
  cases hfields : fieldsOf? false variadic es with
  | none => exact .failure
  | some fields => exact .pure (spelled_fieldsOf? hes hfields)

/-! ### Type parameters -/

/-- The name of an entry, if there is one, is an identifier. -/
def Entry.Named (e : Entry) : Prop := ∀ name ∈ e.name, IsName name

theorem arrayOrInstance_named (r : Rules) {name : Text} (h : IsName name) :
    Gives (fun p => ∀ name ∈ p.1, IsName name) (r.arrayOrInstance name) :=
  fun s p s' hs => (arrayOrInstance_gives r h s p s' hs).1

theorem entryFrom_named (n : Nat) (unions : Bool) {name : Text} (h : IsName name) :
    Spells Entry.Named ((ofDepth n).entryFrom unions name) := by
  have hb := balanced_ofDepth n
  have hname : ∀ n ∈ some name, IsName n := fun n hn => Option.some.inj hn ▸ h
  have hnone : ∀ n ∈ (Option.none : Option Text), IsName n := nofun
  have hunion : ∀ {o : Option Text} (t : Expr), (∀ n ∈ o, IsName n) →
      Spells Entry.Named (do return ⟨o, some (← (ofDepth n).unionFrom t)⟩ : Parse Entry) := fun t ho =>
    .bind_any (hb.unionFrom t) fun _ => .pure ho
  have hclose : ∀ {o : Option Text} (t : Expr), (∀ n ∈ o, IsName n) → Spells Entry.Named (do
      if unions && (← isNext (.op "|")) then return ⟨o, some (← (ofDepth n).unionFrom t)⟩
      else return ⟨o, some t⟩ : Parse Entry) := fun t ho =>
    .bind_any (Looks.isNext _).keeps fun _ => .ite (fun _ => hunion t ho) (.pure ho)
  refine .bind_any Balanced.atParamType fun _ => .ite (fun _ => .bind_any hb.type fun t => hclose t hname) ?_
  refine .bind_any (Looks.isNext _).keeps fun _ => .ite (fun _ => .bind (.of_gives (hb.arrayOrInstance name)
    (arrayOrInstance_named _ h)) fun p hp => hclose p.2 hp) ?_
  refine .bind_any (Looks.isNext _).keeps fun _ => .ite (fun _ => .bind_any hb.dotsType fun _ => .pure hname) ?_
  refine .bind_any (Looks.isNext _).keeps fun _ => .ite (fun _ => .bind_any (hb.namedTypeFrom name) fun t =>
    hclose t hnone) ?_
  refine .bind_any (Looks.isNext _).keeps fun _ => .ite (fun _ => .bind_any hb.term fun t => hunion t hname) ?_
  exact .bind_any (Looks.isNext _).keeps fun _ => .ite (fun _ => hunion _ hnone) (.pure hname)

theorem entry_named (n : Nat) (unions : Bool) : Spells Entry.Named ((ofDepth n).entry unions) := by
  have hb := balanced_ofDepth n
  have hnone : ∀ n ∈ (Option.none : Option Text), IsName n := nofun
  have hunion : ∀ t : Expr, Spells Entry.Named (do
      return ⟨Option.none, some (← (ofDepth n).unionFrom t)⟩ : Parse Entry) := fun t =>
    .bind_any (hb.unionFrom t) fun _ => .pure hnone
  refine .bind_any (Looks.isNext _).keeps fun _ => .ite (fun _ => .bind_any hb.term fun t => hunion t) ?_
  refine .bind_any Looks.isIdent.keeps fun _ => .ite (fun _ => .bind .ident fun name hname =>
    entryFrom_named n unions hname) ?_
  refine .bind_any (Looks.isNext _).keeps fun _ => .ite (fun _ => .bind_any hb.dotsType fun _ => .pure hnone) ?_
  refine .bind_any Balanced.atParamType fun _ => .bind_any (Looks.isNext _).keeps fun _ => .ite (fun _ => ?_) .failure
  exact .bind_any hb.type fun t => .bind_any (Looks.isNext _).keeps fun _ => .ite (fun _ => hunion t) (.pure hnone)

theorem named_namedFields {es : List Entry} (h : ∀ e ∈ es, e.Named) {fields : List Field}
    (hfields : namedFields es = some fields) : ∀ f ∈ fields, ∀ name ∈ f.names, IsName name := by
  induction es generalizing fields with
  | nil =>
    obtain rfl := Option.some.inj hfields
    nofun
  | cons e es ih =>
    obtain ⟨hname, hes⟩ := List.forall_mem_cons.1 h
    obtain ⟨_ | n, _ | t⟩ := e
    · cases hfields
    · cases hfields
    · rw [namedFields] at hfields
      split at hfields
      · rename_i ns t fs hrest
        obtain rfl := Option.some.inj hfields
        obtain ⟨hns, hfs⟩ := List.forall_mem_cons.1 (ih hes hrest)
        exact List.forall_mem_cons.2 ⟨List.forall_mem_cons.2 ⟨hname n rfl, hns⟩, hfs⟩
      · cases hfields
    · rw [namedFields, Option.map_eq_some_iff] at hfields
      obtain ⟨fs, hrest, rfl⟩ := hfields
      exact List.forall_mem_cons.2 ⟨List.forall_mem_singleton.2 (hname n rfl), ih hes hrest⟩

theorem typeParams_named (n : Nat) : Spells (∀ f ∈ ·, ∀ name ∈ f.names, IsName name) ((ofDepth n).typeParams) := by
  have hexpect : ∀ t, Spells (fun _ => True) (expect t) := fun t =>
    .bind_any (Looks.isNext t).keeps fun _ => .ite (fun _ => .advance) .failure
  have hfields : ∀ {e : Entry} {es : List Entry}, e.Named → (∀ e ∈ es, e.Named) →
      ∀ fields, fieldsOf? true false (e :: es) = some fields → ∀ f ∈ fields, ∀ name ∈ f.names, IsName name := by
    intro e es he hes fields h
    rw [fieldsOf?] at h
    split at h
    · cases h
    · rename_i hnamed
      dsimp only at h
      rw [if_pos (by simpa only [List.isEmpty_cons, Bool.not_false, Bool.true_and, Bool.and_true, Bool.not_eq_true',
        Bool.not_eq_false] using hnamed)] at h
      obtain ⟨fs, hfs, hend⟩ := Option.bind_eq_some_iff.1 h
      obtain rfl := Option.some.inj (Option.ite_none_right_eq_some.1 hend).2
      exact named_namedFields (List.forall_mem_cons.2 ⟨he, hes⟩) hfs
  refine .bind (hexpect _) fun _ _ => .bind (entry_named n true) fun e he => ?_
  refine .bind_any (Looks.atComma _).keeps fun goes => .ite (fun _ => ?_) (.bind (.pure (Q := (· = [])) rfl) ?_)
  · refine .bind .advance fun _ _ => .bind (.commaList .rbrack (entry_named n true)) fun es hes => ?_
    refine .bind (hexpect _) fun _ _ => ?_
    split
    · exact .pure (hfields he hes _ ‹_›)
    · exact .failure
  · rintro _ rfl
    refine .bind (hexpect _) fun _ _ => ?_
    split
    · exact .pure (hfields he (List.forall_mem_nil _) _ ‹_›)
    · exact .failure

end Rules

/-- The names of accepted type parameters are identifiers. -/
theorem isName_of_parseTypeParams {s : Text} {names : List Text} (h : parseTypeParams s = .ok names) :
    ∀ name ∈ names, IsName name := by
  rw [parseTypeParams] at h
  split at h
  · cases h
    exact List.forall_mem_nil _
  · split at h
    · cases h
    · rename_i f hparse
      obtain ⟨X, hX, -⟩ := unclosed_of_parseFile? hparse
      obtain ⟨ts, o, -, hcut, -⟩ := frame_typeParams.exists_cut (by decide) hX
      obtain ⟨Y, rfl⟩ : ∃ Y, X = .keyword "package" :: .ident "p" :: .semicolon false ::
          .keyword "func" :: .ident "f" :: .lbrack :: Y := by
        rcases hcut with ⟨-, rfl⟩ | ⟨-, rfl⟩ <;> exact ⟨_, rfl⟩
      obtain ⟨n, fields, s₀, s₁, ps, rs, body, decls, hs₀, hfields, rfl, -⟩ := exists_typeParams hX hparse
      have hspelled : s₀.Spelled := fun name hname => by
        rw [hs₀] at hname
        exact isName_of_mem_tokens? hX (List.mem_cons_of_mem _ (List.mem_cons_of_mem _ (List.mem_cons_of_mem _
          (List.mem_cons_of_mem _ (List.mem_cons_of_mem _ hname)))))
      have hnames := (Rules.typeParams_named _ _ _ _ hspelled hfields).1
      dsimp only at h
      split at h
      · cases h
      · obtain rfl := Except.ok.inj h
        intro name hname
        obtain ⟨f, hf, hname⟩ := List.mem_flatMap.1 hname
        exact hnames f hf name hname

/-- The parameters of a text that is read as a function type. -/
theorem spelled_of_parse {s : Text} {fields : List Field} {results : Option (List Field)}
    (h : parseExpr? ("func(" ++ s ++ ")") = some (.func fields results)) : ∀ f ∈ fields, f.Spelled := by
  obtain ⟨n, ts, s₁, _, htokens, hparams, -⟩ := exists_params h
  have hspelled : Source.Spelled { tokens := ts } := fun name hname =>
    isName_of_mem_tokens? htokens (List.mem_cons_of_mem _ hname)
  exact (Rules.params_spells _ true _ _ _ hspelled hparams).1

end Host

/-! ### Parameter lists -/

/-- A parameter, which may have no name. -/
structure Parameter where
  name : Option Text
  type : Host.Expr

/-- The parameters of a field. -/
def Host.Field.parameters (f : Host.Field) : List Parameter :=
  if f.names.isEmpty then [⟨none, f.type⟩] else f.names.map fun name => ⟨some name, f.type⟩

/-- Reads a parameter list between the brackets of a function type. -/
def readParameters? (params : Text) : Option (List Parameter) :=
  if params.isBlank then some []
  else match Host.parseExpr? ("func(" ++ params ++ ")") with
    | some (.func fields _) => some (fields.flatMap (·.parameters))
    | _ => none

namespace Signature

/-- A signature has the names of all parameters, which are identifiers, and the normal forms of their types. -/
structure Describes (s : Signature) (ps : List Parameter) : Prop where
  names : ps.map (·.name) = s.names.map some
  types : ps.map (·.type.render) = s.types
  variadic : s.variadic = true ↔ ∃ p ∈ ps.getLast?, p.type.isEllipsis = true
  spelled : ∀ name ∈ s.names, Host.IsName name ∧ name ≠ [0x5f]
  marked : ∀ p ∈ ps, p.type.Marked

theorem describes_ofFields {fields : List Host.Field} {s : Signature} (h : ofFields fields = .ok s)
    (hnamed : s.unnamed = false) (hspelled : ∀ f ∈ fields, f.Spelled) :
    s.Describes (fields.flatMap (·.parameters)) := by
  rw [ofFields] at h
  split at h
  · cases h
  · obtain rfl := Except.ok.inj h
    have hfields : ∀ f ∈ fields, f.names ≠ [] ∧ [0x5f] ∉ f.names ∧
        f.parameters = f.names.map fun name => ⟨some name, f.type⟩ := by
      intro f hf
      have hf' := List.any_eq_false.1 hnamed f hf
      simp only [Bool.or_eq_true, List.isEmpty_iff, List.contains_iff_mem, not_or] at hf'
      exact ⟨hf'.1, hf'.2, if_neg (by simpa using hf'.1)⟩
    refine ⟨?_, ?_, ?_, ?_, ?_⟩
    · rw [List.map_flatMap, List.map_flatMap]
      refine List.flatMap_congr fun f hf => ?_
      rw [(hfields f hf).2.2, List.map_map]
      rfl
    · rw [List.map_flatMap]
      refine List.flatMap_congr fun f hf => ?_
      have hlength : 0 < f.names.length := List.length_pos_of_ne_nil (hfields f hf).1
      rw [(hfields f hf).2.2, List.map_map, Nat.max_eq_left hlength, ← List.map_const']
      rfl
    · cases fields using List.reverseRecOn with
      | nil => simp
      | append_singleton fs f =>
        obtain ⟨hne, -, hparams⟩ := hfields f (by simp)
        obtain ⟨ns, n, hns⟩ := (List.eq_nil_or_concat f.names).resolve_left hne
        simp [hparams, hns]
    · intro name hname
      obtain ⟨f, hf, hname⟩ := List.mem_flatMap.1 hname
      exact ⟨(hspelled f hf).1 name hname, fun he => (hfields f hf).2.1 (he ▸ hname)⟩
    · intro p hp
      obtain ⟨f, hf, hp⟩ := List.mem_flatMap.1 hp
      rw [(hfields f hf).2.2] at hp
      obtain ⟨name, -, rfl⟩ := List.mem_map.1 hp
      exact (hspelled f hf).2

theorem exists_describes {params : Text} {s : Signature} (h : parse params = .ok s) (hnamed : s.unnamed = false) :
    ∃ ps, readParameters? params = some ps ∧ s.Describes ps := by
  rw [parse] at h
  rw [readParameters?]
  split at h
  · rename_i hblank
    obtain rfl := Except.ok.inj h
    exact ⟨[], if_pos hblank, ⟨rfl, rfl, by simp, by simp, by simp⟩⟩
  · rename_i hblank
    rw [if_neg hblank]
    split at h
    · cases h
    · rename_i fields results hparse
      exact ⟨_, by rw [hparse], describes_ofFields h hnamed (Host.spelled_of_parse hparse)⟩
    · cases h

/-- A signature without parameters is not variadic. -/
theorem Describes.variadic_eq_false {s : Signature} {ps : List Parameter} (h : s.Describes ps) (hnil : s.names = []) :
    s.variadic = false := by
  have hps : ps = [] := by
    have hnames := h.names
    rw [hnil] at hnames
    exact List.map_eq_nil_iff.1 hnames
  have hvariadic := h.variadic
  rw [hps] at hvariadic
  simpa using hvariadic

end Signature

end MeaningForest

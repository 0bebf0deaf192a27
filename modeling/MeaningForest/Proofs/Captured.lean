import MeaningForest.Proofs.Content
import MeaningForest.Proofs.Words
import Mathlib.Data.List.TakeWhile

/-!
# What declarations are made of

The names in a declaration file that was read are words of letters and digits that are not empty (`Text.IsIdent`).  The
fragments of host code have no white space around them (`Text.IsTrimmed`), and no field is without a type.
`Reading.Yields` says of a step of reading what it returns when the names among the tokens are of this form, and that
this stays so; the loops of the reader collect what the steps return.
-/

namespace MeaningForest

open Lexeme

variable {lang : Language}

namespace Text

/-! ### Trimming -/

/-- A text has no white space around it. -/
def IsTrimmed (t : Text) : Prop := trimSpace t = t

theorem size_dropUnits {size : Text → Nat} (hnil : size [] = 0) (t : Text) :
    size (dropUnits size t) = 0 := by
  fun_induction dropUnits size t with
  | case1 => exact hnil
  | case2 b rest _ ih => exact ih
  | case3 t h => omega

theorem dropUnits_eq_self {size : Text → Nat} {t : Text} (h : size t = 0) : dropUnits size t = t := by
  rw [dropUnits.eq_def, if_neg (by omega)]

theorem dropUnits_suffix (size : Text → Nat) (t : Text) : dropUnits size t <:+ t := by
  fun_induction dropUnits size t with
  | case1 => exact List.suffix_rfl
  | case2 b rest _ ih => exact (ih.trans (List.drop_suffix _ rest)).trans (List.suffix_cons b rest)
  | case3 t _ => exact List.suffix_rfl

theorem spaceLength_ascii {b : UInt8} (hb : isAsciiSpace b) (t : Text) : spaceLength (b :: t) = 1 := by
  unfold spaceLength
  split
  case h_7 c _ _ _ _ _ _ _ heq =>
    obtain ⟨rfl, -⟩ := List.cons.inj heq
    rw [if_pos hb]
  case h_8 => rename_i heq; cases heq
  all_goals
    rename_i heq
    obtain ⟨rfl, -⟩ := List.cons.inj heq
    cases hb

/-- White space at the start of a text is there if more follows. -/
theorem spaceLength_append {t : Text} (h : spaceLength t ≠ 0) (v : Text) : spaceLength (t ++ v) ≠ 0 := by
  unfold spaceLength at h
  split at h
  · exact h
  · exact h
  · exact h
  · exact h
  · exact h
  · exact h
  · rw [List.cons_append, spaceLength_ascii (by simpa using h)]
    exact Nat.one_ne_zero
  · exact absurd rfl h

theorem isTrimmed_trimSpace (t : Text) : IsTrimmed (trimSpace t) := by
  obtain ⟨u, hu⟩ : ∃ u, dropUnits spaceLength t = u := ⟨_, rfl⟩
  obtain ⟨w, hw⟩ : ∃ w : Text, dropUnits spaceLengthRev u.reverse = w.reverse := ⟨_, (List.reverse_reverse _).symm⟩
  have hfront : spaceLength w = 0 := by
    obtain ⟨cut, hcut⟩ := dropUnits_suffix spaceLengthRev u.reverse
    have happend : u = w ++ cut.reverse := by
      rw [hw] at hcut
      rw [← List.reverse_reverse u, ← hcut]
      simp
    have hzero : spaceLength u = 0 := hu ▸ size_dropUnits rfl t
    by_contra hne
    exact spaceLength_append hne cut.reverse (happend ▸ hzero)
  have hback : spaceLengthRev w.reverse = 0 := hw ▸ size_dropUnits rfl u.reverse
  have htrim : trimSpace t = w := by rw [trimSpace, hu, hw, List.reverse_reverse]
  rw [htrim, IsTrimmed, trimSpace, dropUnits_eq_self hfront, dropUnits_eq_self hback, List.reverse_reverse]

/-- Where dropping units leaves nothing, the last one ends the text. -/
theorem exists_last_unit {size : Text → Nat} {t : Text} (hne : t ≠ []) (h : dropUnits size t = []) :
    ∃ s, s <:+ t ∧ s ≠ [] ∧ s.length ≤ size s := by
  fun_induction dropUnits size t with
  | case1 => exact absurd rfl hne
  | case2 b rest hpos ih =>
    by_cases hrest : rest.drop (size (b :: rest) - 1) = []
    · refine ⟨b :: rest, List.suffix_refl _, hne, ?_⟩
      have := List.drop_eq_nil_iff.1 hrest
      rw [List.length_cons]
      omega
    · obtain ⟨s, hs, hne, hle⟩ := ih hrest h
      exact ⟨s, hs.trans ((List.drop_suffix _ _).trans (List.suffix_cons b rest)), hne, hle⟩
  | case3 t => exact absurd h hne

theorem spaceLength_reverse {s : Text} (hne : s ≠ []) (h : s.length ≤ spaceLengthRev s) :
    spaceLength s.reverse ≠ 0 := by
  have hnil : ∀ {k : Nat} {rest : Text}, rest.length + k ≤ k → rest = [] := fun h =>
    List.eq_nil_of_length_eq_zero (by omega)
  unfold spaceLengthRev at h
  split at h
  · obtain rfl := hnil (k := 2) h
    decide
  · obtain rfl := hnil (k := 2) h
    decide
  · obtain rfl := hnil (k := 3) h
    decide
  · obtain rfl := hnil (k := 3) h
    decide
  · obtain rfl := hnil (k := 3) h
    decide
  · split at h
    · rename_i hb
      obtain rfl := hnil (k := 3) h
      simp [spaceLength, hb]
    · simp at h
  · split at h
    · rename_i hb
      obtain rfl := hnil (k := 1) h
      rw [List.reverse_singleton, spaceLength_ascii hb]
      exact Nat.one_ne_zero
    · simp at h
  · exact absurd rfl hne

/-- A text that does not start with white space is not blank. -/
theorem isBlank_eq_false {t : Text} (hne : t ≠ []) (h : spaceLength t = 0) : t.isBlank = false := by
  refine Bool.eq_false_iff.2 fun hblank => ?_
  rw [isBlank, trimSpace, dropUnits_eq_self h, List.isEmpty_reverse, List.isEmpty_iff] at hblank
  obtain ⟨s, ⟨u, hu⟩, hs, hle⟩ := exists_last_unit (List.reverse_ne_nil_iff.2 hne) hblank
  have ht : t = s.reverse ++ u.reverse := by rw [← List.reverse_append, hu, List.reverse_reverse]
  exact spaceLength_append (spaceLength_reverse hs hle) u.reverse (ht ▸ h)

theorem isTrimmed_nil : IsTrimmed [] := by
  have hfront : dropUnits spaceLength [] = [] := dropUnits_eq_self rfl
  have hback : dropUnits spaceLengthRev [] = [] := dropUnits_eq_self rfl
  rw [IsTrimmed, trimSpace, hfront, List.reverse_nil, hback, List.reverse_nil]

/-- A trimmed text that is blank is empty. -/
theorem IsTrimmed.isBlank_iff {t : Text} (h : IsTrimmed t) : t.isBlank ↔ t = [] := by
  rw [isBlank, h, List.isEmpty_iff]

end Text

open Text

/-! ### Names -/

theorem Lexeme.single_ne_ident (b : UInt8) : single b ≠ .ident := by
  have hite : ∀ {p : Prop} [Decidable p] {k k' : TokenKind}, k ≠ .ident → k' ≠ .ident →
      (if p then k else k') ≠ .ident := by
    intro p _ k k' hk hk'
    split
    · exact hk
    · exact hk'
  rw [single]
  repeat refine hite (by simp) ?_
  simp

/-- A text is a word that is not empty. -/
structure Text.IsIdent (t : Text) : Prop where
  word : IsWord t
  nonempty : t ≠ []

instance (t : Text) : Decidable t.IsIdent :=
  decidable_of_iff (t.IsWord ∧ t ≠ []) ⟨fun h => ⟨h.1, h.2⟩, fun h => ⟨h.word, h.nonempty⟩⟩

/-- The bytes of a name. -/
theorem Lexeme.measure_ident {b : UInt8} {t : Text} {n : Nat} (h : measure b t = some (.ident, n)) :
    IsWord (b :: t.take n) := by
  cases opening b t with
  | line t =>
    have hkind := lineKind_isComment t
    rw [measure_line] at h
    rw [(Prod.mk.inj (Option.some.inj h)).1] at hkind
    cases hkind
  | block t => cases (measure_block t).symm.trans h
  | quoted _ _ hq =>
    rw [measure_quoted hq] at h
    obtain ⟨_, -, heq⟩ := Option.map_eq_some_iff.1 h
    rcases hq with rfl | rfl <;> cases heq
  | raw _ => cases (measure_raw t).symm.trans h
  | plain _ _ hp =>
    rw [measure_of_plain hp] at h
    split at h
    · rename_i hb
      obtain ⟨-, rfl⟩ := Prod.mk.inj (Option.some.inj h)
      intro c hc
      rcases List.mem_cons.1 hc with rfl | hc
      · simp [isWordPart, hb]
      · have htake : t.take (span isWordPart t) = t.takeWhile isWordPart :=
          (List.prefix_iff_eq_take.1 (List.takeWhile_prefix _)).symm
        exact List.mem_takeWhile_imp (htake ▸ hc)
    · split at h
      · have hkind := congrArg Prod.fst (Option.some.inj h)
        unfold numeral at hkind
        split at hkind
        · cases hkind
        · dsimp only at hkind
          split at hkind <;> cases hkind
      · have hkind := congrArg Prod.fst (Option.some.inj h)
        unfold dots? at hkind
        split at hkind
        · split at hkind <;> cases hkind
        · unfold symbolic at hkind
          dsimp only [Option.getD_none] at hkind
          split at hkind
          · cases hkind
          · exact absurd hkind (single_ne_ident b)

theorem Text.isIdent_of_content? {t : Text} {ts : List (TokenKind × Text)} (h : content? t = some ts) :
    ∀ x ∈ ts, x.1 = .ident → IsIdent x.2 := by
  induction t using scan_induction generalizing ts with
  | nil =>
    obtain rfl := Option.some.inj (content?_nil.symm.trans h)
    simp
  | gap b t hgap ih => exact ih ((content?_gap hgap t).symm.trans h)
  | zero t =>
    obtain rfl := Option.some.inj ((content?_zero t).symm.trans h)
    simp
  | cut b t hgap hb hm =>
    rw [content?_cons hgap hb, hm] at h
    cases h
  | lexeme b t kind n hgap hb hm ih =>
    rw [content?_cons hgap hb, hm] at h
    obtain ⟨rest, hrest, rfl⟩ := Option.map_eq_some_iff.1 h
    intro x hx hk
    unfold push at hx
    split at hx
    · exact ih hrest x hx hk
    · rcases List.mem_cons.1 hx with rfl | hx
      · obtain rfl : kind = .ident := hk
        exact ⟨measure_ident hm, List.cons_ne_nil _ _⟩
      · exact ih hrest x hx hk

/-! ### Steps of reading -/

namespace Reader

/-- The names among the tokens are words that are not empty. -/
structure Lettered (r : Reader) : Prop where
  ending : r.ending.kind ≠ .ident
  items : ∀ i ∈ r.items, i.kind = .ident → IsIdent i.token.literal

variable {r r' : Reader}

theorem Lettered.later (hr : r.Lettered) (h : Later r r') : r'.Lettered :=
  ⟨h.ending ▸ hr.ending, fun i hi => hr.items i (h.items.subset hi)⟩

theorem Lettered.current (hr : r.Lettered) (hk : r.current.kind = .ident) : IsIdent r.current.literal := by
  cases hi : r.items with
  | nil => exact absurd (by simpa [Reader.current, hi] using hk) hr.ending
  | cons i rest =>
    have hi' : r.current = i.token := by simp [Reader.current, hi]
    rw [hi'] at hk ⊢
    exact hr.items i (by simp [hi]) hk

end Reader

namespace Reading

open Reader

variable {α β : Type} {Q : α → Prop} {Q' : β → Prop}

/-- A step keeps the names words, and what it returns satisfies `Q`. -/
def Yields (x : Reading α) (Q : α → Prop) : Prop :=
  ∀ r : Reader, r.Lettered → (x.run r).2.Lettered ∧ ∀ a, (x.run r).1 = some a → Q a

namespace Yields

theorem run_bind (x : Reading α) (f : α → Reading β) (r : Reader) :
    (x >>= f).run r = (x.run r).1.elim (Pure.pure none) (fun a => (f a).run) (x.run r).2 := by
  rw [OptionT.run_bind]
  rfl

theorem bind {x : Reading α} {f : α → Reading β} (hx : Yields x Q) (hf : ∀ a, Q a → Yields (f a) Q') :
    Yields (x >>= f) Q' := by
  intro r hr
  obtain ⟨hr', hQ⟩ := hx r hr
  rw [run_bind]
  cases hxr : (x.run r).1 with
  | none => exact ⟨hr', fun b hb => by cases hb⟩
  | some a => exact hf a (hQ a hxr) _ hr'

theorem pure {a : α} (h : Q a) : Yields (pure a) Q := by
  intro r hr
  refine ⟨hr, fun b hb => ?_⟩
  obtain rfl := Option.some.inj hb
  exact h

theorem get : Yields get Lettered := by
  intro r hr
  refine ⟨hr, fun b hb => ?_⟩
  obtain rfl := Option.some.inj hb
  exact hr

theorem next : Yields next fun _ => True := fun r hr => ⟨hr.later (later_advance r), fun _ _ => trivial⟩

theorem at? (k : TokenKind) : Yields (at? k) fun _ => True := fun _ hr => ⟨hr, fun _ _ => trivial⟩

theorem before? (k : TokenKind) : Yields (before? k) fun _ => True := fun _ hr => ⟨hr, fun _ _ => trivial⟩

theorem refuse (t : Token) (p : ReadProblem) : Yields (refuse t p) Q :=
  fun _ hr => ⟨⟨hr.ending, hr.items⟩, fun _ h => by cases h⟩

theorem require (k : TokenKind) : Yields (require k) fun _ => True := by
  refine get.bind fun r _ => ?_
  split
  · exact next
  · exact refuse _ _

/-- A step that is taken or not, before both branches go on alike. -/
theorem whether {c : Prop} [Decidable c] {x : Reading Unit} {f : Unit → Reading α} (hx : Yields x fun _ => True)
    (hf : Yields (f ()) Q) : Yields (if c then x >>= f else f ()) Q := by
  split
  · exact hx.bind fun _ _ => hf
  · exact hf

/-- A step that goes on only where nothing is wrong. -/
theorem ensure {c : Prop} [Decidable c] (t : Token) (p : ReadProblem) {f : Unit → Reading α}
    (hf : ¬ c → Yields (f ()) Q) : Yields (if c then Reading.refuse t p >>= f else f ()) Q := by
  split
  · exact (refuse (Q := fun _ => False) t p).bind fun _ h => h.elim
  · rename_i hc
    exact hf hc

/-- The name after the current token. -/
theorem requireName {f : Reader → Reading α} (hf : ∀ r : Reader, IsIdent r.current.literal → Yields (f r) Q) :
    Yields (Reading.require .ident >>= fun _ => MonadStateOf.get >>= f) Q := by
  intro r hr
  have hrequire : (Reading.require .ident).run r = if r.upcoming.kind = .ident then (some (), r.advance)
      else (none, r.note r.upcoming (.expected .ident r.upcoming)) := by
    show (if r.upcoming.kind = .ident then Reading.next else _ : Reading Unit).run r = _
    split <;> rfl
  rw [run_bind, hrequire]
  split
  · rename_i hk
    have hadvance := hr.later (later_advance r)
    exact hf r.advance (hadvance.current hk) r.advance hadvance
  · exact ⟨⟨hr.ending, hr.items⟩, fun _ h => by cases h⟩

theorem suffix_findFragmentEnd (stops : List TokenKind) (depth : Nat) (items : List Item) :
    match findFragmentEnd stops depth items with
    | .found _ rest | .unbalanced _ rest => rest <:+ items
    | .exhausted => True := by
  have hcons : ∀ {e : FragmentEnd} {i : Item} {items : List Item},
      (match e with | .found _ rest | .unbalanced _ rest => rest <:+ items | .exhausted => True) →
      match e with | .found _ rest | .unbalanced _ rest => rest <:+ i :: items | .exhausted => True := by
    intro e i items h
    cases e with
    | found stop rest => exact h.trans (List.suffix_cons i items)
    | unbalanced stop rest => exact h.trans (List.suffix_cons i items)
    | exhausted => trivial
  fun_induction findFragmentEnd stops depth items with
  | case1 => trivial
  | case2 => exact List.suffix_rfl
  | case3 i rest _ _ ih => exact hcons ih
  | case4 => exact List.suffix_rfl
  | case5 i rest _ _ _ ih => exact hcons ih
  | case6 depth i rest _ ih => exact hcons ih
  | case7 depth i rest _ _ ih => exact hcons ih
  | case8 depth i rest _ _ ih => exact hcons ih

theorem fragment (stops : List TokenKind) (wanted : TokenKind) :
    Yields (fragment stops wanted) fun a => IsTrimmed a.1 := by
  intro r hr
  have hsuffix := suffix_findFragmentEnd stops 0 r.items
  have hrun : (Reading.fragment stops wanted).run r = match findFragmentEnd stops 0 r.items with
      | .found stop rest =>
        (some (trimSpace ((r.source.drop r.current.start).take (stop.start - r.current.start)), stop),
          { r with items := rest })
      | .unbalanced stop rest => (none, Reader.note { r with items := rest } stop (.expected wanted stop))
      | .exhausted => (none, Reader.note { r with items := [] } r.ending (.expected wanted r.ending)) := by
    show (match findFragmentEnd stops 0 r.items with
      | .found stop rest => _
      | .unbalanced stop rest => _
      | .exhausted => _ : Reading (Text × Token)).run r = _
    split <;> rfl
  rw [hrun]
  split
  · rename_i stop rest heq
    rw [heq] at hsuffix
    refine ⟨⟨hr.ending, fun i hi => hr.items i (hsuffix.subset hi)⟩, fun a ha => ?_⟩
    obtain rfl := Option.some.inj ha
    exact isTrimmed_trimSpace _
  · rename_i stop rest heq
    rw [heq] at hsuffix
    exact ⟨⟨hr.ending, fun i hi => hr.items i (hsuffix.subset hi)⟩, fun _ h => by cases h⟩
  · exact ⟨⟨hr.ending, fun i hi => absurd hi List.not_mem_nil⟩, fun _ h => by cases h⟩

theorem fragmentTo (stop : TokenKind) : Yields (fragmentTo stop) IsTrimmed :=
  (fragment [stop] stop).bind fun _ h => pure h

theorem group (opening closing : TokenKind) : Yields (group opening closing) IsTrimmed := by
  refine get.bind fun r _ => ?_
  split
  · exact next.bind fun _ _ => fragmentTo closing
  · exact refuse _ _

theorem typeParams : Yields typeParams IsTrimmed := by
  refine (at? _).bind fun b _ => ?_
  split
  · exact (group _ _).bind fun t ht => next.bind fun _ _ => pure ht
  · exact pure isTrimmed_nil

end Yields

end Reading

/-! ### Declarations -/

/-- A field has a name and a type, and its fragments are trimmed. -/
structure FieldDecl.Captured (d : FieldDecl) : Prop where
  name : IsIdent d.name
  typed : d.type ≠ []
  type : IsTrimmed d.type
  default : IsTrimmed d.default

structure ConstructorDecl.Captured (d : ConstructorDecl) : Prop where
  typeParams : IsTrimmed d.typeParams
  params : IsTrimmed d.params
  superArgs : ∀ t ∈ d.superArgs, IsTrimmed t
  body : IsTrimmed d.body

structure MethodDecl.Captured (d : MethodDecl) : Prop where
  name : IsIdent d.name
  typeParams : IsTrimmed d.typeParams
  params : IsTrimmed d.params
  results : IsTrimmed d.results
  body : IsTrimmed d.body

structure MeaningDecl.Captured (d : MeaningDecl) : Prop where
  name : IsIdent d.name
  parent : IsWord d.parent
  fields : ∀ f ∈ d.fields, f.Captured
  constructors : ∀ c ∈ d.constructors, c.Captured
  methods : ∀ f ∈ d.methods, f.Captured

structure DeclFile.Captured (f : DeclFile) : Prop where
  arena : IsWord f.arena
  meanings : ∀ d ∈ f.meanings, d.Captured

namespace Reading.Yields

theorem field : Yields field FieldDecl.Captured := by
  refine (before? _).bind fun isRef _ => ?_
  refine whether next (requireName fun name hname => ?_)
  refine (require _).bind fun _ _ => next.bind fun _ _ => (fragment _ _).bind ?_
  rintro ⟨type, stop⟩ htype
  refine ensure _ _ fun htyped => ?_
  have hne : type ≠ [] := by simpa using htyped
  split
  · refine next.bind fun _ _ => (fragment _ _).bind ?_
    rintro ⟨default, stop⟩ hdefault
    exact whether (refuse _ _) (next.bind fun _ _ => pure ⟨hname, hne, htype, hdefault⟩)
  · exact next.bind fun _ _ => pure ⟨hname, hne, htype, isTrimmed_nil⟩

theorem skipSemicolon : Yields skipSemicolon fun _ => True := by
  refine (at? _).bind fun b _ => ?_
  split
  · exact next
  · exact pure trivial

theorem superCall : Yields superCall fun args => ∀ t ∈ args, IsTrimmed t := by
  refine (at? _).bind fun b _ => ?_
  split
  · refine next.bind fun _ _ => (group _ _).bind fun args hargs => next.bind fun _ _ => skipSemicolon.bind fun _ _ => ?_
    exact pure (by simpa using hargs)
  · exact pure (by simp)

theorem constructor : Yields constructor ConstructorDecl.Captured := by
  refine get.bind fun r _ => next.bind fun _ _ => typeParams.bind fun types htypes => ?_
  refine (group _ _).bind fun params hparams => (require _).bind fun _ _ => next.bind fun _ _ => ?_
  refine superCall.bind fun superArgs hsuper => (fragmentTo _).bind fun body hbody => next.bind fun _ _ => ?_
  exact pure ⟨htypes, hparams, hsuper, hbody⟩

theorem methodHead : Yields methodHead fun _ => True := by
  refine get.bind fun r _ => (at? _).bind fun b _ => ?_
  split
  · exact (require _).bind fun _ _ => get.bind fun _ _ => pure trivial
  · exact pure trivial

theorem method : Yields method MethodDecl.Captured := by
  refine methodHead.bind fun head _ => requireName fun name hname => next.bind fun _ _ => ?_
  refine typeParams.bind fun types htypes => (group _ _).bind fun params hparams => next.bind fun _ _ => ?_
  refine (fragmentTo _).bind fun results hresults => next.bind fun _ _ => ?_
  exact (fragmentTo _).bind fun body hbody => next.bind fun _ _ => pure ⟨hname, htypes, hparams, hresults, hbody⟩

theorem member {d : MeaningDecl} (hd : d.Captured) : Yields (member d) MeaningDecl.Captured := by
  have hadd : ∀ {α : Type} {P : α → Prop} {l : List α} {a : α}, (∀ x ∈ l, P x) → P a → ∀ x ∈ l ++ [a], P x := by
    intro α P l a hl ha x hx
    rcases List.mem_append.1 hx with hx | hx
    · exact hl x hx
    · exact List.mem_singleton.1 hx ▸ ha
  refine get.bind fun r _ => ?_
  split
  · exact field.bind fun f hf => pure { hd with fields := hadd hd.fields hf }
  · exact constructor.bind fun c hc => pure { hd with constructors := hadd hd.constructors hc }
  · exact method.bind fun f hf => pure { hd with methods := hadd hd.methods hf }
  · exact method.bind fun f hf => pure { hd with methods := hadd hd.methods hf }
  · exact next.bind fun _ _ => pure hd
  · exact refuse _ _

theorem meaningHead : Yields meaningHead MeaningDecl.Captured := by
  have hnew : ∀ {place parentPlace : Position} {name parent doc : Text}, IsIdent name → IsWord parent →
      MeaningDecl.Captured ⟨place, name, parent, parentPlace, doc, [], [], []⟩ :=
    fun hname hparent => ⟨hname, hparent, by simp, by simp, by simp⟩
  refine get.bind fun r _ => requireName fun name hname => (before? _).bind fun b _ => ?_
  dsimp only
  split
  · refine next.bind fun _ _ => requireName fun parent hparent => (require _).bind fun _ _ => next.bind fun _ _ => ?_
    exact pure (hnew hname hparent.word)
  · exact (require _).bind fun _ _ => next.bind fun _ _ => pure (hnew hname isWord_nil)

theorem named : Yields named IsIdent := requireName fun _ hname => pure hname

end Reading.Yields

/-! ### Files -/

namespace Reader

variable {r : Reader}

open Reading

theorem members_captured {d : MeaningDecl} (hr : r.Lettered) (hd : d.Captured) : (r.members d).2.Captured := by
  fun_induction r.members d with
  | case1 r d _ => exact hd
  | case2 r d _ _ => exact hd
  | case3 r d _ _ d' r' hrun _ ih =>
    obtain ⟨hr', hd'⟩ := Yields.member hd r hr
    split at hrun
    · rename_i hsome
      rw [hsome] at hr' hd'
      obtain ⟨rfl, rfl⟩ := Prod.mk.inj hrun
      exact ih hr' (hd' _ rfl)
    · rename_i hnone
      rw [hnone] at hr'
      obtain ⟨rfl, rfl⟩ := Prod.mk.inj hrun
      exact ih (hr'.later (later_recoverMember _)) hd
  | case4 r d _ _ d' r' hrun _ =>
    obtain ⟨-, hd'⟩ := Yields.member hd r hr
    split at hrun
    · rename_i hsome
      rw [hsome] at hd'
      obtain ⟨rfl, rfl⟩ := Prod.mk.inj hrun
      exact hd' _ rfl
    · obtain ⟨rfl, rfl⟩ := Prod.mk.inj hrun
      exact hd

theorem declaration_captured {f : DeclFile} (hr : r.Lettered) (hf : f.Captured) : (r.declaration f).2.Captured := by
  have hname : IsWord ((Reading.named.run r).1.getD f.arena) := by
    cases hrun : (Reading.named.run r).1 with
    | none => exact hf.arena
    | some name => exact ((Yields.named r hr).2 name hrun).word
  rw [declaration]
  split
  · exact ⟨hf.arena, hf.meanings⟩
  · exact ⟨hname, hf.meanings⟩
  · exact ⟨hf.arena, hf.meanings⟩
  · obtain ⟨hr', hd⟩ := Yields.meaningHead r hr
    split
    · rename_i d r' hrun
      rw [hrun] at hr' hd
      refine ⟨hf.arena, fun m hm => ?_⟩
      rcases List.mem_append.1 hm with hm | hm
      · exact hf.meanings m hm
      · exact List.mem_singleton.1 hm ▸ members_captured hr' (hd d rfl)
    · exact hf
  · exact hf
  · exact hf

theorem declarations_captured {f : DeclFile} (hr : r.Lettered) (hsound : r.Sound) (hf : f.Captured) :
    (r.declarations f).2.Captured := by
  fun_induction r.declarations f with
  | case1 r f _ => exact hf
  | case2 r f _ r' f' hrun _ ih =>
    have hlater : Later r r' := by
      have hjudged := @declaration_judged lang _ _ _ f hsound (@Grammar.absorbs_file fun _ _ => True) Iff.rfl
      rw [hrun] at hjudged
      exact hjudged.later
    have hf' := @declaration_captured lang _ f hr hf
    rw [hrun] at hf'
    exact ih (hr.later hlater) (hlater.sound hsound) hf'
  | case3 r f _ r' f' hrun _ =>
    have hf' := @declaration_captured lang _ f hr hf
    rwa [hrun] at hf'

theorem lettered_ofTokens {source : Text} {tokens : List Token} (h : Token.scan source = .ok tokens) :
    (ofTokens source tokens).Lettered := by
  have hcontent : content? source = some (Token.content tokens) := by
    rw [content?, h]
    rfl
  obtain ⟨body, ending, rfl, he, hbody⟩ := Token.scanFrom_eq_ok h
  refine ⟨by simp [ending_ofTokens, he], ?_⟩
  rw [items_ofTokens source he hbody]
  intro i hi hk
  have hmem : i.token ∈ body.filter (!·.kind.isComment) := by
    rw [← Item.map_token_ofTokens []]
    exact List.mem_map_of_mem hi
  have hkind : i.token.kind = .ident := hk
  refine isIdent_of_content? hcontent (i.token.kind, i.token.literal) (List.mem_map_of_mem ?_) hk
  refine List.mem_filter.2 ⟨List.mem_append_left _ (List.mem_of_mem_filter hmem), ?_⟩
  rw [hkind]
  rfl

end Reader

/-- In a file that was read, names are words that are not empty and fragments are trimmed. -/
theorem DeclFile.captured_of_read {name source : Text} {result : ReadResult}
    (h : DeclFile.read name source = .ok result) : result.file.Captured := by
  cases hscan : Token.scan source with
  | error e =>
    rw [DeclFile.read, hscan] at h
    cases h
  | ok tokens =>
    rw [DeclFile.read, hscan] at h
    obtain rfl := Except.ok.inj h
    have hlettered := Reader.lettered_ofTokens hscan
    obtain ⟨body, ending, rfl, he, hbody⟩ := Token.scanFrom_eq_ok hscan
    exact Reader.declarations_captured hlettered (Reader.sound_ofTokens source he hbody) ⟨isWord_nil, by simp⟩

theorem DeclFile.read_of_mem {name source : Text} {result : ReadResult}
    (h : result ∈ (DeclFile.read name source).toOption) : DeclFile.read name source = .ok result := by
  cases hread : DeclFile.read name source with
  | error e =>
    rw [hread] at h
    cases h
  | ok result' =>
    rw [hread] at h
    rw [Option.some.inj h]

end MeaningForest

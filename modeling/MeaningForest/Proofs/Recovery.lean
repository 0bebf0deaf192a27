import MeaningForest.Proofs.Acceptance
import MeaningForest.Proofs.Reports

/-!
# Problems in source order

A closing brace is the one token at which the reader goes on after a problem without passing it, and no step of reading
that rests there blames the token after it.  So the reader always goes on at the place of the last problem or behind it
(`Reader.InOrder`).

Every turn of a loop of the reader passes an item (`Reader.Proceeds`).  So reading ends at the end of the source, and
the problems stand at tokens of the source in the order of their places (`DeclFile.exists_read_inOrder`).
-/

namespace MeaningForest

variable {lang : Language}

/-! ### The order of places -/

/-- Places in the order of the text: by line, then by column. -/
instance : LE Position := ⟨fun p q => p.line < q.line ∨ p.line = q.line ∧ p.column ≤ q.column⟩

namespace Position

theorem le_iff {p q : Position} : p ≤ q ↔ p.line < q.line ∨ p.line = q.line ∧ p.column ≤ q.column := Iff.rfl

protected theorem le_refl (p : Position) : p ≤ p := .inr ⟨rfl, Nat.le_refl _⟩

protected theorem le_trans {p q s : Position} (h : p ≤ q) (h' : q ≤ s) : p ≤ s := by
  rw [le_iff] at *
  omega

end Position

theorem Mark.le_advance (m : Mark) (t : Text) : m.position ≤ (m.advance t).position := by
  induction t generalizing m with
  | nil => exact Position.le_refl _
  | cons b t ih =>
    refine Position.le_trans ?_ (ih (m.step b))
    rw [Position.le_iff, step]
    split
    · exact .inl (Nat.lt_succ_self _)
    · exact .inr ⟨rfl, Nat.le_succ _⟩

/-- The tokens of a source stand in the order of their places. -/
theorem Token.scanFrom_ascending {total : Nat} {m : Mark} {t : Text} {tokens : List Token}
    (h : scanFrom total m t = .ok tokens) :
    (∀ s ∈ tokens, m.position ≤ s.position) ∧ tokens.Pairwise fun s u => s.position ≤ u.position := by
  have hend : ∀ m m' : Mark, m.position ≤ m'.position →
      (∀ s ∈ [atEnd total m'], m.position ≤ s.position) ∧
        [atEnd total m'].Pairwise fun s u => s.position ≤ u.position := by
    intro m m' hle
    exact ⟨List.forall_mem_singleton.2 hle, List.pairwise_singleton _ _⟩
  fun_induction scanFrom total m t generalizing tokens with
  | case1 m t =>
    obtain rfl := Except.ok.inj h
    exact hend m _ (m.le_advance _)
  | case2 m t =>
    obtain rfl := Except.ok.inj h
    exact hend m _ (m.le_advance _)
  | case3 => cases h
  | case4 m t b rest hgap m' hb kind n hmeasure bytes after =>
    rename_i ih
    cases hrest : scanFrom total after (rest.drop n) with
    | error e =>
      rw [hrest] at h
      cases h
    | ok ts =>
      rw [hrest] at h
      obtain rfl := Except.ok.inj h
      obtain ⟨hafter, hordered⟩ := ih hrest
      have hm : m.position ≤ m'.position := m.le_advance _
      have hle : ∀ s ∈ ts, m'.position ≤ s.position :=
        fun s hs => Position.le_trans (m'.le_advance bytes) (hafter s hs)
      exact ⟨List.forall_mem_cons.2 ⟨hm, fun s hs => Position.le_trans hm (hle s hs)⟩,
        List.pairwise_cons.2 ⟨hle, hordered⟩⟩

/-! ### Progress -/

namespace Reader

variable {r r' r'' : Reader}

theorem items_ne_nil (hr : r.Sound) (hk : r.current.kind ≠ .eof) : r.items ≠ [] := by
  obtain ⟨i, rest, hi⟩ := exists_item hr hk
  simp [hi]

theorem Later.advance_lt (h : Later r r') (hne : r.items ≠ []) : r'.advance.items.length < r.items.length := by
  have hle := h.items.length_le
  have hpos := List.length_pos_iff.2 hne
  rw [advance, List.length_drop]
  omega

theorem later_advance_recoverDeclaration (r : Reader) : Later r.advance r.recoverDeclaration :=
  ⟨rfl, rfl, List.dropWhile_suffix _⟩

theorem later_advance_recoverMember (hk : r.current.kind ≠ .rbrace) : Later r.advance r.recoverMember := by
  rw [recoverMember, if_neg hk]
  exact ⟨rfl, rfl, skipMember_suffix 0 _⟩

theorem recoverMember_of_rbrace (hk : r.current.kind = .rbrace) : r.recoverMember = r := if_pos hk

theorem later_importDecl (hr : r.Sound) : Later r.advance r.importDecl.1 := by
  have hr₁ := (later_advance r).sound hr
  rw [importDecl]
  split
  · exact (later_advance _).trans (importSpecs_judged [] ((later_advance _).sound hr₁) (K := 1) Iff.rfl).later
  · have hspec := Reading.Decides.importSpec hr₁ (K := 1) Iff.rfl
    split
    · rename_i hrun
      exact (hspec.of_some hrun).1.trans (later_passSemicolon _)
    · rename_i hrun
      exact (hspec.of_none hrun).1.trans (later_passSemicolon _)

theorem declaration_lt (f : DeclFile) (hr : r.Sound) (hk : r.current.kind ≠ .eof) :
    (r.declaration f).1.items.length < r.items.length := by
  have hne := items_ne_nil hr hk
  have hnamed : (Reading.named.run r).2.advance.passSemicolon.items.length < r.items.length := by
    have hdecides := Reading.Decides.named hr (K := 1) Iff.rfl
    have hlater : Later r (Reading.named.run r).2 := by
      rcases hrun : Reading.named.run r with ⟨_ | name, r₁⟩
      · exact (hdecides.of_none hrun).1
      · exact (hdecides.of_some hrun).1
    exact lt_of_le_of_lt (later_passSemicolon _).items.length_le (hlater.advance_lt hne)
  rw [declaration]
  split
  · exact hnamed
  · exact hnamed
  · exact (later_importDecl hr).length_lt hr hk
  · have hhead := Reading.Decides.meaningHead hr (K := 1) Iff.rfl
    split
    · rename_i d r₁ hrun
      obtain ⟨hlater, -, hadv, -⟩ := hhead.of_some hrun
      exact (hadv.trans (members_judged d (hlater.sound hr) (K := 1) Iff.rfl).later).length_lt hr hk
    · rename_i r₁ hrun
      have hlater := (hhead.of_none hrun).1
      exact lt_of_le_of_lt (later_advance_recoverDeclaration r₁).items.length_le (hlater.advance_lt hne)
  · exact (Later.refl r).advance_lt hne
  · exact lt_of_le_of_lt (later_advance_recoverDeclaration _).items.length_le ((Later.refl r).advance_lt hne)

/-- After a member that could not be read, the reader goes on behind the place where it started. -/
theorem recoverMember_lt (h : Later r r') (hne : r.items ≠ []) (hk : r.current.kind ≠ .rbrace) :
    r'.recoverMember.items.length < r.items.length := by
  by_cases hbrace : r'.current.kind = .rbrace
  · rw [recoverMember_of_rbrace hbrace]
    -- the reader that rests at a closing brace is not the one that started
    refine lt_of_le_of_ne h.items.length_le fun hlength => hk ?_
    have hitems : r'.items = r.items := h.items.eq_of_length hlength
    rwa [current, hitems, h.ending] at hbrace
  · exact lt_of_le_of_lt (later_advance_recoverMember hbrace).items.length_le (h.advance_lt hne)

/-- The number of items left after one turn of a loop: after what was read, or after the recovery. -/
def remaining {α : Type} (recover : Reader → Reader) : Option α × Reader → Nat
  | (some _, r) => r.items.length
  | (none, r) => (recover r).items.length

/-- Every loop of the reader passes items: the one over the declarations, over the members of a meaning and over the
imports of a group, with what they do to go on after a problem. -/
structure Proceeds [Language] (r : Reader) : Prop where
  declaration : r.current.kind ≠ .eof → ∀ f, (r.declaration f).1.items.length < r.items.length
  member : r.current.kind ∉ [.rbrace, .eof] → ∀ d,
    remaining recoverMember ((Reading.member d).run r) < r.items.length
  importSpec : r.current.kind ∉ [.rparen, .eof] →
    remaining recoverDeclaration (Reading.importSpec.run r) < r.items.length
  recoverDeclaration : r.current.kind ≠ .eof → r.recoverDeclaration.items.length < r.items.length
  recoverMember : r.current.kind ∉ [.rbrace, .eof] → r.recoverMember.items.length < r.items.length

theorem proceeds (hr : r.Sound) : r.Proceeds where
  declaration hk f := declaration_lt f hr hk
  member hk d := by
    simp only [List.mem_cons, List.not_mem_nil, or_false, not_or] at hk
    have hne := items_ne_nil hr hk.2
    have hdecides := Reading.Decides.member d hr (K := 1) Iff.rfl
    rcases hrun : (Reading.member d).run r with ⟨_ | d', r'⟩
    · exact recoverMember_lt (hdecides.of_none hrun).1 hne hk.1
    · exact (hdecides.of_some hrun).2.2.1.length_lt hr hk.2
  importSpec hk := by
    simp only [List.mem_cons, List.not_mem_nil, or_false, not_or] at hk
    have hdecides := Reading.Decides.importSpec hr (K := 1) Iff.rfl
    rcases hrun : Reading.importSpec.run r with ⟨_ | s, r'⟩
    · exact lt_of_le_of_lt (later_advance_recoverDeclaration r').items.length_le
        ((hdecides.of_none hrun).1.advance_lt (items_ne_nil hr hk.2))
    · exact (hdecides.of_some hrun).2.2.1.length_lt hr hk.2
  recoverDeclaration hk := (later_advance_recoverDeclaration r).length_lt hr hk
  recoverMember hk := by
    simp only [List.mem_cons, List.not_mem_nil, or_false, not_or] at hk
    exact (later_advance_recoverMember hk.1).length_lt hr hk.2

/-- Reading declarations ends at the end of the source. -/
theorem declarations_at_end (f : DeclFile) (hr : r.Sound) : (r.declarations f).1.current.kind = .eof := by
  fun_induction r.declarations f with
  | case1 r f hend => exact hend
  | case2 r f hend r' f' hrun hlt ih =>
    have hdecl := @declaration_judged lang _ _ (Grammar.file (Grammar.Written r.source))
      f hr Grammar.absorbs_file Iff.rfl
    rw [hrun] at hdecl
    exact ih (hdecl.later.sound hr)
  | case3 r f hend r' f' hrun hlt =>
    have hdecl := @declaration_lt lang _ f hr hend
    rw [hrun] at hdecl
    exact absurd hdecl hlt

/-! ### Order -/

theorem tokens_suffix (h : Later r r') : r'.tokens <:+ r.tokens := by
  obtain ⟨pre, hpre⟩ := h.items
  exact ⟨pre.map (·.token), by rw [tokens, tokens, ← hpre, h.ending, List.map_append, List.append_assoc]⟩

theorem current_mem (r : Reader) : r.current ∈ r.tokens := by simp [tokens_eq]

theorem upcoming_mem (r : Reader) : r.upcoming ∈ r.tokens :=
  (tokens_suffix (later_advance r)).subset (current_mem r.advance)

/-- The tokens that are left stand in the order of their places. -/
def Ascending (r : Reader) : Prop := r.tokens.Pairwise fun s t => s.position ≤ t.position

theorem Ascending.current_le (h : r.Ascending) {t : Token} (ht : t ∈ r.tokens) : r.current.position ≤ t.position := by
  rw [Ascending, tokens_eq, List.pairwise_cons] at h
  rw [tokens_eq, List.mem_cons] at ht
  rcases ht with rfl | ht
  · exact Position.le_refl _
  · exact h.1 t ht

theorem Ascending.later (h : r.Ascending) (hlater : Later r r') : r'.Ascending :=
  List.Pairwise.sublist (tokens_suffix hlater).sublist h

theorem Ascending.le_later (h : r.Ascending) (hlater : Later r r') : r.current.position ≤ r'.current.position :=
  h.current_le ((tokens_suffix hlater).subset (current_mem r'))

/-- The problems noted so far stand at tokens of the source in the order of their places, and the reader is not before
the last of them. -/
structure InOrder (source : List Token) (r : Reader) : Prop where
  sound : r.Sound
  within : ∀ t ∈ r.tokens, t ∈ source
  ascending : r.Ascending
  placed : ∀ q ∈ r.problems, ∃ t ∈ source, q.position = t.position
  ordered : r.problems.Pairwise fun p q => p.position ≤ q.position
  reached : ∀ q ∈ r.problems, q.position ≤ r.current.position

namespace InOrder

variable {source : List Token}

theorem later (h : InOrder source r) (hlater : Later r r') (hsame : r'.problems = r.problems) :
    InOrder source r' where
  sound := hlater.sound h.sound
  within t ht := h.within t ((tokens_suffix hlater).subset ht)
  ascending := h.ascending.later hlater
  placed := hsame ▸ h.placed
  ordered := hsame ▸ h.ordered
  reached q hq := Position.le_trans (h.reached q (hsame ▸ hq)) (h.ascending.le_later hlater)

/-- A problem at a token that is still to be read, if the reader goes on at it or behind it. -/
theorem noted (h : InOrder source r) (hlater : Later r r') {t : Token} {p : ReadProblem} (ht : t ∈ r.tokens)
    (hproblems : r'.problems = r.problems ++ [.found t.position p]) (hle : t.position ≤ r'.current.position) :
    InOrder source r' := by
  have hbefore : ∀ q ∈ r.problems, q.position ≤ t.position :=
    fun q hq => Position.le_trans (h.reached q hq) (h.ascending.current_le ht)
  refine ⟨hlater.sound h.sound, fun s hs => h.within s ((tokens_suffix hlater).subset hs), h.ascending.later hlater,
    ?_, ?_, ?_⟩
  · rw [hproblems, List.forall_mem_append, List.forall_mem_singleton]
    exact ⟨h.placed, t, h.within t ht, rfl⟩
  · rw [hproblems, List.pairwise_append]
    refine ⟨h.ordered, List.pairwise_singleton _ _, fun q hq => ?_⟩
    rw [List.forall_mem_singleton]
    exact hbefore q hq
  · rw [hproblems, List.forall_mem_append, List.forall_mem_singleton]
    exact ⟨fun q hq => Position.le_trans (hbefore q hq) hle, hle⟩

theorem note (h : InOrder source r) (p : ReadProblem) : InOrder source (r.note r.current p) :=
  h.noted ⟨rfl, rfl, List.suffix_rfl⟩ (current_mem r) rfl (Position.le_refl _)

/-- After a step that failed the reader goes on behind the current token, or at it if it is a closing brace. -/
theorem refused (h : InOrder source r) (hrefused : Refused r r') (hlater : Later r' r'')
    (hsame : r''.problems = r'.problems) (hbehind : r'.current.kind ≠ .rbrace → Later r'.advance r'') :
    InOrder source r'' := by
  obtain ⟨t, p, hproblems, ht⟩ := hrefused.noted
  have hsuffix := tokens_suffix hrefused.later
  have hrest := h.ascending.later hrefused.later
  have hnoted : t ∈ r.tokens → t.position ≤ r''.current.position → InOrder source r'' :=
    fun hmem hle => h.noted (hrefused.later.trans hlater) hmem (hsame.trans hproblems) hle
  rcases ht with rfl | ⟨rfl, hbrace⟩
  · exact hnoted (hsuffix.subset (current_mem r')) (hrest.le_later hlater)
  · exact hnoted (hsuffix.subset (upcoming_mem r'))
      ((hrest.later (later_advance r')).le_later (hbehind hbrace))

theorem member {d d' : MeaningDecl} (h : InOrder source r) (hk : r.current.kind ≠ .rbrace)
    (hrun : (match (Reading.member d).run r with
      | (some d', r') => (d', r')
      | (none, r') => (d, r'.recoverMember)) = (d', r')) : InOrder source r' := by
  have hreports := Reading.Reports.member d hk
  split at hrun
  · rename_i hsome
    obtain ⟨-, rfl⟩ := Prod.mk.inj hrun
    obtain ⟨hlater, hsame, -⟩ := hreports.of_some hsome
    exact h.later hlater hsame
  · rename_i r₁ hnone
    obtain ⟨-, rfl⟩ := Prod.mk.inj hrun
    refine h.refused (hreports.of_none hnone) (later_recoverMember r₁) ?_ fun hbrace => ?_
    · rw [recoverMember]
      split <;> rfl
    · exact later_advance_recoverMember hbrace

theorem members (d : MeaningDecl) (h : InOrder source r) : InOrder source (r.members d).1 := by
  fun_induction r.members d with
  | case1 r d hclose => exact h.later (later_advance r) rfl
  | case2 r d hclose hend => exact h.note _
  | case3 r d hclose hend d' r' hrun hlt ih => exact ih (h.member hclose hrun)
  | case4 r d hclose hend d' r' hrun hlt => exact h.member hclose hrun

theorem recoverDeclaration (h : InOrder source r) : InOrder source r.recoverDeclaration :=
  h.later (later_recoverDeclaration r) rfl

theorem passSemicolon (h : InOrder source r) : InOrder source r.passSemicolon :=
  h.later (later_passSemicolon r) (problems_passSemicolon r)

theorem importSpec (h : InOrder source r) : InOrder source (Reading.importSpec.run r).2 := by
  have hnamed : InOrder source (if r.current.kind = .ident ∨ r.current.kind = .dot then r.advance else r) := by
    split
    · exact h.later (later_advance r) rfl
    · exact h
  rw [Reading.importSpec_run]
  dsimp only
  generalize (if r.current.kind = .ident ∨ r.current.kind = .dot then r.advance else r) = r₁ at hnamed
  by_cases hstring : r₁.current.kind = .string
  · rw [if_pos hstring]
    exact hnamed.later (later_advance r₁) rfl
  · rw [if_neg hstring]
    exact hnamed.note _

theorem importSpecs (specs : List ImportDecl) (h : InOrder source r) : InOrder source (r.importSpecs specs).1 := by
  fun_induction r.importSpecs specs with
  | case1 r specs hclose => exact h.later (later_advance r) rfl
  | case2 r specs hclose hend => exact h.note _
  | case3 r specs hclose hend hsemi hlt ih => exact ih (h.later (later_advance r) rfl)
  | case4 r specs hclose hend hsemi hlt => exact h
  | case5 r specs hclose hend hsemi s r' hrun hlt ih =>
    have hspec := @importSpec lang _ _ h
    rw [hrun] at hspec
    exact ih hspec
  | case6 r specs hclose hend hsemi s r' hrun hlt =>
    have hspec := @importSpec lang _ _ h
    rwa [hrun] at hspec
  | case7 r specs hclose hend hsemi r' hrun =>
    have hspec := @importSpec lang _ _ h
    rw [hrun] at hspec
    exact hspec.recoverDeclaration

theorem importDecl (h : InOrder source r) : InOrder source r.importDecl.1 := by
  have hadvance := h.later (later_advance r) rfl
  rw [Reader.importDecl]
  split
  · exact (hadvance.later (later_advance _) rfl).importSpecs []
  · have hspec := @importSpec lang _ _ hadvance
    split
    · rename_i hrun
      rw [hrun] at hspec
      exact hspec.passSemicolon
    · rename_i hrun
      rw [hrun] at hspec
      exact hspec.passSemicolon

theorem named (h : InOrder source r) (hk : r.current.kind ≠ .rbrace) :
    InOrder source (Reading.named.run r).2.advance.passSemicolon := by
  have hreports := Reading.Reports.named hk
  rcases hrun : Reading.named.run r with ⟨_ | name, r'⟩
  · exact (h.refused (hreports.of_none hrun) (later_advance r') rfl fun _ => .refl _).passSemicolon
  · obtain ⟨hlater, hsame, -⟩ := hreports.of_some hrun
    exact (h.later (hlater.trans (later_advance r')) hsame).passSemicolon

theorem declaration (f : DeclFile) (h : InOrder source r) : InOrder source (r.declaration f).1 := by
  rw [Reader.declaration]
  split
  · rename_i hk
    exact h.named (by simp [hk])
  · rename_i hk
    exact h.named (by simp [hk])
  · exact h.importDecl
  · rename_i hk
    have hreports := Reading.Reports.meaningHead (r := r) (by simp [hk])
    split
    · rename_i d r' hrun
      obtain ⟨hlater, hsame, -⟩ := hreports.of_some hrun
      exact (h.later hlater hsame).members d
    · rename_i r' hrun
      exact h.refused (hreports.of_none hrun) (later_recoverDeclaration r') rfl
        fun _ => later_advance_recoverDeclaration r'
  · exact h.later (later_advance r) rfl
  · exact (h.note _).recoverDeclaration

theorem declarations (f : DeclFile) (h : InOrder source r) : InOrder source (r.declarations f).1 := by
  fun_induction r.declarations f with
  | case1 r f hend => exact h
  | case2 r f hend r' f' hrun hlt ih =>
    have hdecl := @declaration lang _ _ f h
    rw [hrun] at hdecl
    exact ih hdecl
  | case3 r f hend r' f' hrun hlt =>
    have hdecl := @declaration lang _ _ f h
    rwa [hrun] at hdecl

end InOrder

theorem ascending_ofTokens {body : List Token} {ending : Token} (text : Text) (he : ending.kind = .eof)
    (hbody : ∀ t ∈ body, t.kind ≠ .eof) (h : (body ++ [ending]).Pairwise fun s t => s.position ≤ t.position) :
    (ofTokens text (body ++ [ending])).Ascending := by
  rw [Ascending, tokens_ofTokens text he hbody]
  exact h.sublist List.filter_sublist

end Reader

/-- Reading a file comes to the end of its source, and every loop passes items wherever it starts.  The problems stand
at tokens of the source, in the order of their places. -/
theorem DeclFile.exists_read_inOrder (name source : Text) {tokens : List Token} (h : Token.scan source = .ok tokens) :
    ∃ result, DeclFile.read name source = .ok result ∧
      ((Reader.ofTokens source tokens).declarations { name }).1.current.kind = .eof ∧
      (∀ r : Reader, (Reader.ofTokens source tokens).Later r → r.Proceeds) ∧
      (∀ q ∈ result.problems, ∃ t ∈ tokens, q.position = t.position) ∧
      result.problems.Pairwise fun p q => p.position ≤ q.position := by
  have hasc := (Token.scanFrom_ascending h).2
  obtain ⟨body, ending, rfl, he, hbody⟩ := Token.scanFrom_eq_ok h
  have hsound := Reader.sound_ofTokens source he hbody
  have hstart : (Reader.ofTokens source (body ++ [ending])).InOrder (body ++ [ending]) := by
    refine ⟨hsound, fun t ht => ?_, Reader.ascending_ofTokens source he hbody hasc, by simp [Reader.ofTokens],
      by simp [Reader.ofTokens], by simp [Reader.ofTokens]⟩
    rw [Reader.tokens_ofTokens source he hbody] at ht
    exact List.mem_of_mem_filter ht
  have hend := @Reader.InOrder.declarations lang _ _ { name } hstart
  refine ⟨_, by rw [DeclFile.read, h]; rfl, Reader.declarations_at_end _ hsound,
    fun r hr => Reader.proceeds (hr.sound hsound), hend.placed, hend.ordered⟩

/-- Problems at the current token and at the one after it, at a closing brace, at another meaning and at the end. -/
def wreckage : Text :=
  "meaning A \x7b let : int; fn \x7d meaning B : \x7b meaning C \x7b let \x7d import ( f g let x meaning D \x7b ) let x: ( "

theorem DeclFile.read_wreckage : ∃ tokens result, Token.scan wreckage = .ok tokens ∧
    @DeclFile.read .english "a.mt" wreckage = .ok result ∧
    (∀ q ∈ result.problems, ∃ t ∈ tokens, q.position = t.position) ∧
    result.problems.Pairwise fun p q => p.position ≤ q.position := by
  have hscan : (Token.scan wreckage).isOk = true := by decide +kernel
  cases htokens : Token.scan wreckage with
  | error e => simp [htokens, Except.isOk, Except.toBool] at hscan
  | ok tokens =>
    obtain ⟨result, hread, -, -, hplaced, hordered⟩ := DeclFile.exists_read_inOrder "a.mt" wreckage htokens
    exact ⟨tokens, result, rfl, hread, hplaced, hordered⟩

end MeaningForest

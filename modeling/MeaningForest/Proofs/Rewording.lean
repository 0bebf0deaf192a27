import Mathlib.Logic.Basic
import MeaningForest.Compilation.Basic

/-!
# Reading in two languages

A problem is worded when it is found.  Reading in another language echoes reading: step by step it consumes the same
tokens, gives the same declarations and notes the same problems at the same places, each in the words of the other
language.  `Echoes` says this of one step, and `DeclFormat.read_reworded` of a whole file in either form.
-/

namespace MeaningForest

/-- A problem in the words of a language. -/
def Located.reworded {α : Type} [Problem α] (lang : Language) (p : Located α) : Located α :=
  Located.found p.position p.problem

variable {lang lang' : Language}

@[simp] theorem Located.reworded_found {α : Type} [Problem α] (position : Position) (problem : α) :
    (@found α lang _ position problem).reworded lang' = @found α lang' _ position problem := rfl

/-- What was read, with the problems in the words of a language. -/
def ReadResult.reworded (lang : Language) (r : ReadResult) : ReadResult :=
  { r with problems := r.problems.map (Located.reworded lang) }

/-- A computation on a state, and one on its image: they give the same result and leave a state and its image. -/
def Echoes {σ α : Type} (image : σ → σ) (x x' : StateM σ α) : Prop :=
  ∀ s, x'.run (image s) = ((x.run s).1, image (x.run s).2)

namespace Echoes

variable {σ α β : Type} {image : σ → σ}

theorem pure (a : α) : Echoes image (Pure.pure a) (Pure.pure a) := fun _ => rfl

theorem modify {f f' : σ → σ} (h : ∀ s, f' (image s) = image (f s)) :
    Echoes image (modify f) (modify f') := fun s => congrArg (((), ·)) (h s)

theorem bind {x x' : StateM σ α} {f f' : α → StateM σ β} (hx : Echoes image x x')
    (hf : ∀ a, Echoes image (f a) (f' a)) : Echoes image (x >>= f) (x' >>= f') := fun s => by
  show (f' (x'.run (image s)).1).run (x'.run (image s)).2 = _
  rw [hx s]
  exact hf _ _

theorem mapM {f f' : α → StateM σ β} (hf : ∀ a, Echoes image (f a) (f' a)) (l : List α) :
    Echoes image (l.mapM f) (l.mapM f') := by
  induction l with
  | nil => exact pure []
  | cons a l ih =>
    rw [List.mapM_cons, List.mapM_cons]
    exact (hf a).bind fun b => ih.bind fun bs => pure (b :: bs)

theorem ite {c : Prop} [Decidable c] {x y x' y' : StateM σ α} (hx : Echoes image x x') (hy : Echoes image y y') :
    Echoes image (if c then x else y) (if c then x' else y') := by
  split
  · exact hx
  · exact hy

end Echoes

/-! ### Sources -/

namespace Reader

/-- A reader that noted its problems in the words of a language. -/
def reworded (lang : Language) (r : Reader) : Reader :=
  { r with problems := r.problems.map (Located.reworded lang) }

variable (r : Reader)

@[simp] theorem current_reworded : (r.reworded lang).current = r.current := rfl

@[simp] theorem items_reworded : (r.reworded lang).items = r.items := rfl

theorem note_reworded (t : Token) (p : ReadProblem) :
    @note lang' (r.reworded lang') t p = (@note lang r t p).reworded lang' := by
  simp [note, reworded]

end Reader

namespace Reading

variable {α β : Type}

/-- A step of reading, and the same step in another language. -/
def Echoes (lang' : Language) (x x' : Reading α) : Prop := MeaningForest.Echoes (Reader.reworded lang') x.run x'.run

namespace Echoes

theorem pure {a : α} : Echoes lang' (Pure.pure a) (Pure.pure a) := fun _ => rfl

theorem bind {x x' : Reading α} {f f' : α → Reading β} (hx : Echoes lang' x x')
    (hf : ∀ a, Echoes lang' (f a) (f' a)) : Echoes lang' (x >>= f) (x' >>= f') := by
  rw [Echoes, OptionT.run_bind, OptionT.run_bind]
  refine MeaningForest.Echoes.bind hx fun a => ?_
  cases a with
  | none => exact .pure none
  | some a => exact hf a

/-- What goes on with the reader goes on with the reworded one. -/
theorem get {f f' : Reader → Reading α} (h : ∀ r, Echoes lang' (f r) (f' (r.reworded lang'))) :
    Echoes lang' (get >>= f) (get >>= f') := fun r => h r r

theorem set {r : Reader} : Echoes lang' (set r) (set (r.reworded lang')) := fun _ => rfl

theorem next : Echoes lang' next next := fun _ => rfl

theorem at? {k : TokenKind} : Echoes lang' (at? k) (at? k) := fun _ => rfl

theorem before? {k : TokenKind} : Echoes lang' (before? k) (before? k) := fun _ => rfl

theorem refuse {t : Token} {p : ReadProblem} :
    Echoes lang' (@refuse lang α t p) (@refuse lang' α t p) := fun r => congrArg ((none, ·)) (r.note_reworded t p)

theorem ite {c : Prop} [Decidable c] {x y x' y' : Reading α} (hx : Echoes lang' x x') (hy : Echoes lang' y y') :
    Echoes lang' (if c then x else y) (if c then x' else y') := by
  split
  · exact hx
  · exact hy

/-- A step that is taken or not, before both branches go on alike. -/
theorem whether {c : Prop} [Decidable c] {x x' : Reading Unit} {f f' : Unit → Reading α} (hx : Echoes lang' x x')
    (hf : Echoes lang' (f ()) (f' ())) :
    Echoes lang' (if c then x >>= f else f ()) (if c then x' >>= f' else f' ()) :=
  ite (hx.bind fun _ => hf) hf

theorem require {k : TokenKind} : Echoes lang' (@require lang k) (@require lang' k) :=
  get fun _ => ite next refuse

theorem fragment {stops : List TokenKind} {wanted : TokenKind} :
    Echoes lang' (@fragment lang stops wanted) (@fragment lang' stops wanted) := by
  refine get fun r => ?_
  rw [Reader.items_reworded]
  cases findFragmentEnd stops 0 r.items with
  | found stop rest => exact set.bind fun _ => pure
  | unbalanced stop rest => exact set.bind fun _ => refuse
  | exhausted => exact set.bind fun _ => refuse

theorem fragmentTo {stop : TokenKind} : Echoes lang' (@fragmentTo lang stop) (@fragmentTo lang' stop) :=
  fragment.bind fun _ => pure

theorem group {opening closing : TokenKind} :
    Echoes lang' (@group lang opening closing) (@group lang' opening closing) :=
  get fun _ => ite (next.bind fun _ => fragmentTo) refuse

theorem typeParams : Echoes lang' (@typeParams lang) (@typeParams lang') :=
  at?.bind fun _ => ite (group.bind fun _ => next.bind fun _ => pure) pure

theorem field : Echoes lang' (@field lang) (@field lang') := by
  refine before?.bind fun _ => whether next ?_
  refine require.bind fun _ => get fun _ => require.bind fun _ => next.bind fun _ => ?_
  refine fragment.bind ?_
  rintro ⟨type, stop⟩
  refine whether refuse (ite (next.bind fun _ => ?_) (next.bind fun _ => pure))
  refine fragment.bind ?_
  rintro ⟨default, stop⟩
  exact whether refuse (next.bind fun _ => pure)

theorem skipSemicolon : Echoes lang' skipSemicolon skipSemicolon :=
  at?.bind fun _ => ite next pure

theorem superCall : Echoes lang' (@superCall lang) (@superCall lang') :=
  at?.bind fun _ =>
    ite (next.bind fun _ => group.bind fun _ => next.bind fun _ => skipSemicolon.bind fun _ => pure) pure

theorem constructor : Echoes lang' (@constructor lang) (@constructor lang') :=
  get fun _ => next.bind fun _ => typeParams.bind fun _ => group.bind fun _ => require.bind fun _ =>
    next.bind fun _ => superCall.bind fun _ => fragmentTo.bind fun _ => next.bind fun _ => pure

theorem methodHead : Echoes lang' (@methodHead lang) (@methodHead lang') :=
  get fun _ => at?.bind fun _ => ite (require.bind fun _ => get fun _ => pure) pure

theorem method : Echoes lang' (@method lang) (@method lang') := by
  refine methodHead.bind ?_
  rintro ⟨isOverride, doc⟩
  exact require.bind fun _ => get fun _ => next.bind fun _ => typeParams.bind fun _ => group.bind fun _ =>
    next.bind fun _ => fragmentTo.bind fun _ => next.bind fun _ => fragmentTo.bind fun _ =>
      next.bind fun _ => pure

theorem member (d : MeaningDecl) : Echoes lang' (@member lang d) (@member lang' d) := by
  refine get fun r => ?_
  rw [Reader.current_reworded]
  cases r.current.kind with
  | keyword w =>
    cases w with
    | «let» => exact field.bind fun _ => pure
    | constructor => exact constructor.bind fun _ => pure
    | fn => exact method.bind fun _ => pure
    | override => exact method.bind fun _ => pure
    | _ => exact refuse
  | semicolon => exact next.bind fun _ => pure
  | _ => exact refuse

theorem meaningHead : Echoes lang' (@meaningHead lang) (@meaningHead lang') := by
  refine get fun r => require.bind fun _ => get fun _ => before?.bind fun _ => ite ?_ ?_
  · exact next.bind fun _ => require.bind fun _ => get fun _ => require.bind fun _ => next.bind fun _ => pure
  · exact require.bind fun _ => next.bind fun _ => pure

theorem importSpec : Echoes lang' (@importSpec lang) (@importSpec lang') := by
  refine get fun r => at?.bind fun _ => at?.bind fun _ => ite ?_ ?_
  · exact get fun _ => next.bind fun _ => get fun _ => ite (next.bind fun _ => pure) refuse
  · exact get fun _ => ite (next.bind fun _ => pure) refuse

theorem named : Echoes lang' (@named lang) (@named lang') := require.bind fun _ => get fun _ => pure

end Echoes

end Reading

namespace Reader

theorem recoverMember_reworded (r : Reader) : (r.reworded lang).recoverMember = r.recoverMember.reworded lang := by
  rw [recoverMember, recoverMember, apply_ite (reworded lang)]
  rfl

theorem members_reworded (r : Reader) (d : MeaningDecl) :
    @members lang' (r.reworded lang') d = (@members lang r d).map (reworded lang') id := by
  induction hlength : r.items.length using Nat.strongRecOn generalizing r d with
  | ind n ih =>
    have hnext : ∀ (r' : Reader) (d' : MeaningDecl),
        (if _h : (r'.reworded lang').items.length < (r.reworded lang').items.length then
            @members lang' (r'.reworded lang') d' else (r'.reworded lang', d')) =
          (if _h : r'.items.length < r.items.length then @members lang r' d' else (r', d')).map
            (reworded lang') id := by
      intro r' d'
      rw [items_reworded, items_reworded]
      split
      · rename_i hless
        exact ih _ (hlength ▸ hless) r' d' rfl
      · rfl
    have hmember : (@Reading.member lang' d).run (r.reworded lang') =
        (((@Reading.member lang d).run r).1, ((@Reading.member lang d).run r).2.reworded lang') :=
      Reading.Echoes.member d r
    rw [@members.eq_def lang', @members.eq_def lang, current_reworded, hmember]
    by_cases hclose : r.current.kind = .rbrace
    · rw [if_pos hclose, if_pos hclose]
      rfl
    rw [if_neg hclose, if_neg hclose]
    by_cases hend : r.current.kind = .eof ∨ r.current.kind = .keyword .meaning
    · rw [if_pos hend, if_pos hend, @note_reworded lang]
      rfl
    rw [if_neg hend, if_neg hend]
    rcases (@Reading.member lang d).run r with ⟨_ | d', r'⟩
    · dsimp only
      rw [recoverMember_reworded]
      exact hnext r'.recoverMember d
    · exact hnext r' d'

theorem passSemicolon_reworded (r : Reader) : (r.reworded lang).passSemicolon = r.passSemicolon.reworded lang := by
  rw [passSemicolon, passSemicolon, apply_ite (reworded lang)]
  rfl

theorem importSpec_reworded (r : Reader) : (@Reading.importSpec lang').run (r.reworded lang') =
    (((@Reading.importSpec lang).run r).1, ((@Reading.importSpec lang).run r).2.reworded lang') :=
  Reading.Echoes.importSpec r

theorem importSpecs_reworded (r : Reader) (specs : List ImportDecl) :
    @importSpecs lang' (r.reworded lang') specs = (@importSpecs lang r specs).map (reworded lang') id := by
  fun_induction @importSpecs lang r specs with
  | case1 r specs hclose =>
    rw [importSpecs, current_reworded, if_pos hclose]
    rfl
  | case2 r specs hclose hend =>
    rw [importSpecs, current_reworded, if_neg hclose, if_pos hend, @note_reworded lang]
    rfl
  | case3 r specs hclose hend hsemicolon hless ih =>
    rw [importSpecs, current_reworded, if_neg hclose, if_neg hend, if_pos hsemicolon]
    exact (dif_pos hless).trans ih
  | case4 r specs hclose hend hsemicolon hless =>
    rw [importSpecs, current_reworded, if_neg hclose, if_neg hend, if_pos hsemicolon]
    exact dif_neg hless
  | case5 r specs hclose hend hsemicolon spec r' hspec hless ih =>
    rw [importSpecs, current_reworded, if_neg hclose, if_neg hend, if_neg hsemicolon,
      @importSpec_reworded lang, hspec]
    exact (dif_pos hless).trans ih
  | case6 r specs hclose hend hsemicolon spec r' hspec hless =>
    rw [importSpecs, current_reworded, if_neg hclose, if_neg hend, if_neg hsemicolon,
      @importSpec_reworded lang, hspec]
    exact dif_neg hless
  | case7 r specs hclose hend hsemicolon r' hspec =>
    rw [importSpecs, current_reworded, if_neg hclose, if_neg hend, if_neg hsemicolon,
      @importSpec_reworded lang, hspec]
    rfl

theorem importDecl_reworded (r : Reader) :
    @importDecl lang' (r.reworded lang') = (@importDecl lang r).map (reworded lang') id := by
  have hadvance : (r.reworded lang').advance = r.advance.reworded lang' := rfl
  rw [@importDecl.eq_def lang', @importDecl.eq_def lang]
  dsimp only
  rw [hadvance, current_reworded, @importSpec_reworded lang, apply_ite (Prod.map (reworded lang') id)]
  refine if_congr Iff.rfl (importSpecs_reworded r.advance.advance []) ?_
  rcases (@Reading.importSpec lang).run r.advance with ⟨_ | spec, r'⟩
  · exact congrArg (·, []) (passSemicolon_reworded r')
  · exact congrArg (·, [spec]) (passSemicolon_reworded r')

theorem declaration_reworded (r : Reader) (f : DeclFile) :
    @declaration lang' (r.reworded lang') f = (@declaration lang r f).map (reworded lang') id := by
  have hnamed : (@Reading.named lang').run (r.reworded lang') =
      (((@Reading.named lang).run r).1, ((@Reading.named lang).run r).2.reworded lang') := Reading.Echoes.named r
  have hhead : (@Reading.meaningHead lang').run (r.reworded lang') =
      (((@Reading.meaningHead lang).run r).1, ((@Reading.meaningHead lang).run r).2.reworded lang') :=
    Reading.Echoes.meaningHead r
  have hpass : ∀ r : Reader, (r.reworded lang').advance.passSemicolon = r.advance.passSemicolon.reworded lang' :=
    fun r => passSemicolon_reworded r.advance
  rw [@declaration.eq_def lang', @declaration.eq_def lang, current_reworded]
  cases r.current.kind with
  | keyword w =>
    cases w with
    | package =>
      dsimp only
      rw [hnamed]
      exact congrArg (·, _) (hpass _)
    | arena =>
      dsimp only
      rw [hnamed]
      exact congrArg (·, _) (hpass _)
    | «import» =>
      dsimp only
      rw [@importDecl_reworded lang]
      rfl
    | meaning =>
      dsimp only
      rw [hhead]
      rcases (@Reading.meaningHead lang).run r with ⟨_ | d, r'⟩
      · rfl
      · dsimp only
        rw [@members_reworded lang]
        rfl
    | _ => exact congrArg (fun r : Reader => (r.recoverDeclaration, f)) (note_reworded r _ _)
  | semicolon => rfl
  | _ => exact congrArg (fun r : Reader => (r.recoverDeclaration, f)) (note_reworded r _ _)

theorem declarations_reworded (r : Reader) (f : DeclFile) :
    @declarations lang' (r.reworded lang') f = (@declarations lang r f).map (reworded lang') id := by
  fun_induction @declarations lang r f with
  | case1 r f hend =>
    rw [declarations, current_reworded, if_pos hend]
    rfl
  | case2 r f hend r' f' hdeclaration hless ih =>
    rw [declarations, current_reworded, if_neg hend, @declaration_reworded lang, hdeclaration]
    exact (dif_pos hless).trans ih
  | case3 r f hend r' f' hdeclaration hless =>
    rw [declarations, current_reworded, if_neg hend, @declaration_reworded lang, hdeclaration]
    exact dif_neg hless

end Reader

theorem DeclFile.read_reworded (name source : Text) :
    @DeclFile.read lang' name source = (@DeclFile.read lang name source).map (ReadResult.reworded lang') := by
  rw [@DeclFile.read.eq_def lang', @DeclFile.read.eq_def lang]
  cases Token.scan source with
  | error e => rfl
  | ok tokens =>
    have hread := @Reader.declarations_reworded lang lang' (.ofTokens source tokens) { name }
    exact congrArg (fun read : Reader × DeclFile => Except.ok (ReadResult.mk read.2 read.1.problems)) hread

/-! ### Documents -/

namespace DocumentReader

/-- The problems of a document in the words of a language. -/
abbrev Echoes {α : Type} (lang' : Language) (x x' : Check α) : Prop :=
  MeaningForest.Echoes (List.map (Located.reworded lang')) x x'

namespace Echoes

open MeaningForest.Echoes

variable {α : Type}

theorem missing {place : Position} {owner key : Text} :
    Echoes lang' (@missing lang α place owner key) (@missing lang' α place owner key) := by
  refine (modify fun problems => ?_).bind fun _ => pure none
  rw [List.map_append]
  rfl

theorem checkAll {check check' : Nat → α → Check (Option α)} (h : ∀ i a, Echoes lang' (check i a) (check' i a))
    (l : List α) : Echoes lang' (checkAll check l) (checkAll check' l) :=
  (mapM (fun p : α × Nat => h p.2 p.1) l.zipIdx).bind fun _ => pure _

theorem checkImport (i : Nat) (d : ImportDecl) : Echoes lang' (@checkImport lang i d) (@checkImport lang' i d) :=
  ite missing (pure _)

theorem checkField (owner : Text) (i : Nat) (d : FieldDecl) :
    Echoes lang' (@checkField lang owner i d) (@checkField lang' owner i d) :=
  ite missing (ite missing (pure _))

theorem checkMethod (owner : Text) (i : Nat) (d : MethodDecl) :
    Echoes lang' (@checkMethod lang owner i d) (@checkMethod lang' owner i d) :=
  ite missing (pure _)

theorem checkMeaning (i : Nat) (d : MeaningDecl) : Echoes lang' (@checkMeaning lang i d) (@checkMeaning lang' i d) :=
  ite missing ((checkAll (checkField d.name) d.fields).bind fun _ =>
    (checkAll (checkMethod d.name) d.methods).bind fun _ => pure _)

theorem checkFile (f : DeclFile) : Echoes lang' (@checkFile lang f) (@checkFile lang' f) :=
  (checkAll checkImport f.imports).bind fun _ => (checkAll checkMeaning f.meanings).bind fun _ => pure _

end Echoes

end DocumentReader

open DocumentReader in
theorem DeclFile.readDocument_reworded (name source : Text) :
    @DeclFile.readDocument lang' name source =
      (@DeclFile.readDocument lang name source).map (ReadResult.reworded lang') := by
  unfold DeclFile.readDocument
  rcases Yaml.parse? source with _ | _ | doc
  · rfl
  · rfl
  · dsimp only
    rcases decode name doc {} with fault | ⟨f, s⟩
    · cases fault <;> rfl
    · dsimp only
      rw [apply_ite (Except.map _)]
      refine if_congr Iff.rfl ?_ rfl
      have hcheck : @checkFile lang' f [] =
          ((@checkFile lang f []).1, (@checkFile lang f []).2.map (Located.reworded lang')) := Echoes.checkFile f []
      exact congrArg (fun checked : DeclFile × List (Located ReadProblem) =>
        Except.ok (ReadResult.mk checked.1 checked.2)) hcheck

/-- Reading in two languages: the same declarations, and the same problems at the same places in other words. -/
theorem DeclFormat.read_reworded (format : DeclFormat) (name source : Text) :
    @DeclFormat.read lang' format name source =
      (@DeclFormat.read lang format name source).map (ReadResult.reworded lang') := by
  cases format with
  | source => exact DeclFile.read_reworded name source
  | document => exact DeclFile.readDocument_reworded name source

end MeaningForest

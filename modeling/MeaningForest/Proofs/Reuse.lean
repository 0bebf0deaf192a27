import MeaningForest.Proofs.Reachable
import MeaningForest.Proofs.Reordering

/-!
# Sessions that are used again

What a session did before has no effect on the files that follow.  The next file is analysed and its code is generated
as in a new session, and its symbols are recorded behind the arenas of the files before (`analyse_eq_fresh`).  A symbol
that was obtained while an earlier file was current belongs to an arena that has been released (`Retired`), so every
operation refuses it; one that is obtained from the current file can be read.
-/

namespace MeaningForest

variable {lang : Language}

/-- Every operation that has to read a symbol ends with the same fault. -/
structure SymbolTable.Refuses (t : SymbolTable) (s : Symbol) (e : Fault) : Prop where
  slot : t.slot s = .error e
  name : t.name s = .error e
  describe : t.describe s = .error e
  hasKind : ∀ k, t.hasKind s k = .error e
  meaning : t.meaning s = .error e
  field : t.field s = .error e
  method : t.method s = .error e
  parentOf : t.parentOf s = .error e
  ascending : t.ascending s = .error e
  lookupMethod : ∀ n, t.lookupMethod s n = .error e
  lookupField : ∀ n, t.lookupField s n = .error e
  resolveOverride : ∀ m asc, t.resolveOverride s (m :: asc) = .error e
  modifyMeaning : ∀ f, t.modifyMeaning s f = .error e
  setInherits : t.setInherits s none = .error e
  setInherits_readable : ∀ p d, t.meaning p = .ok d → t.setInherits s p = .error e
  setInherits_parent : ∀ m, t.setInherits m s = .error e
  createMethod : ∀ k n doc, t.createMethod k n s doc = .error e
  registerOverride : ∀ m path code, t.registerOverride s (m :: path) code = .error e

theorem SymbolTable.refuses_of_slot {t : SymbolTable} {h : Handle} {e : Fault} (hs : t.slot (some h) = .error e) :
    t.Refuses (some h) e := by
  have hmeaning : t.meaning (some h) = .error e := by rw [SymbolTable.meaning, hs]; rfl
  have hmethod : t.method (some h) = .error e := by rw [SymbolTable.method, hs]; rfl
  have hascending : t.ascending (some h) = .error e := by rw [SymbolTable.ascending, hmeaning]; rfl
  have hmodify : ∀ f, t.modifyMeaning (some h) f = .error e := by
    intro f
    rw [SymbolTable.modifyMeaning_def, hmeaning]
    rfl
  exact
    { slot := hs
      name := by rw [SymbolTable.name, hs]; rfl
      describe := by rw [SymbolTable.describe, hs]; rfl
      hasKind := fun k => by rw [SymbolTable.hasKind, hs]; rfl
      meaning := hmeaning
      field := by rw [SymbolTable.field, hs]; rfl
      method := hmethod
      parentOf := by rw [SymbolTable.parentOf, hmeaning]; rfl
      ascending := hascending
      lookupMethod := fun n => by rw [SymbolTable.lookupMethod, hascending]; rfl
      lookupField := fun n => by rw [SymbolTable.lookupField, hascending]; rfl
      resolveOverride := fun m asc => by rw [SymbolTable.resolveOverride, hmethod]; rfl
      modifyMeaning := hmodify
      setInherits := hmodify _
      setInherits_readable := fun p d hp => by
        cases p with
        | none => exact hmodify _
        | some p =>
          rw [SymbolTable.setInherits_def, hp]
          exact hmodify _
      setInherits_parent := fun m => by rw [SymbolTable.setInherits_def, hmeaning]; rfl
      createMethod := fun k n doc => by rw [SymbolTable.createMethod_def, hmeaning]; rfl
      registerOverride := fun m path code => by rw [SymbolTable.registerOverride_cons, hmethod]; rfl }

namespace Session

open Analysis

variable {s s' s₁ : Session} {file : DeclFile} {a : Analysis}

theorem released_eq {r : Recording} (hr : s.current = some r) : s.released = s.table.release r.arena := by
  rw [released, hr]

/-- A session with its arenas behind others. -/
def behind (front : List (Arena Slot)) (s : Session) : Session :=
  { s with table := s.table.behind front, current := s.current.map (Recording.behind front) }

/-! ### The next file -/

/-- A session analyses the next file as a new session does, behind the arenas that it has. -/
theorem analyse_eq_fresh (s : Session) (file : DeclFile) : s.analyse file =
    (({ settings := s.settings } : Session).analyse file).map fun x => (x.1, x.2.behind s.released.arenas) := by
  rw [analyse_eq_record, analyse_eq_record]
  cases ofFile s.settings file with
  | error e => rfl
  | ok a =>
    -- a new session has nothing to release
    simp only [bind, Except.bind]
    rw [a.record_eq s.released]
    rw [show ({ settings := s.settings } : Session).released = {} from rfl]
    cases a.record {} <;> rfl

theorem generate_eq_fresh (s : Session) (file : DeclFile) : s.generate file =
    (({ settings := s.settings } : Session).generate file).map fun x => (x.1, x.2.behind s.released.arenas) := by
  rw [generate, generate, analyse_eq_fresh]
  cases ({ settings := s.settings } : Session).analyse file with
  | error e => rfl
  | ok x =>
    simp only [Except.map, bind, Except.bind]
    rw [show (x.2.behind s.released.arenas).settings = x.2.settings from rfl]
    cases x.1.generate x.2.settings <;> rfl

theorem exists_analyse_of_generate {outcome : Except Rejection Code.FileCode}
    (h : s.generate file = .ok (outcome, s')) : ∃ a, s.analyse file = .ok (a, s') := by
  obtain ⟨⟨a, s₁⟩, ha, h⟩ := bind_eq_ok.1 h
  obtain ⟨_, -, h⟩ := bind_eq_ok.1 h
  obtain ⟨-, rfl⟩ := Prod.mk.inj (Except.ok.inj h)
  exact ⟨a, ha⟩

/-- The meanings of a file that a session has taken have symbols, and nothing else has. -/
def Offers (s : Session) (a : Analysis) : Prop :=
  (∀ m, (s.meaning? m).isSome ↔ m ∈ a.forest.names) ∧
    ∀ m x, s.meaning? m = some x → ∃ d, s.table.meaning x = .ok d ∧ d.name = m

/-- A session takes every file whose symbols fit into an arena. -/
theorem exists_analyse (s : Session) (file : DeclFile) (hcount : declarationCount file ≤ 4294967296) :
    ∃ a outcome s', s.analyse file = .ok (a, s') ∧ s.generate file = .ok (outcome, s') ∧ s'.Offers a := by
  obtain ⟨a, hofFile, rfl, -, ha⟩ := exists_ofFile s.settings file
  obtain ⟨outcome, houtcome⟩ : ∃ outcome, a.generate s.settings = .ok outcome := by
    obtain ⟨code, hcode⟩ := ha.exists_fileCode s.settings
    rw [Analysis.generate]
    split
    · exact ⟨.ok code, bind_eq_ok.2 ⟨code, hcode, rfl⟩⟩
    · exact ⟨.error (.faulty a), rfl⟩
  have hsymbols := ha.symbolCount_le.trans hcount
  obtain ⟨r, n, hr, hholds⟩ := ha.exists_record s.released hsymbols
  have hanalyse := analyse_eq_ok.2 ⟨hofFile, r, hr, rfl⟩
  refine ⟨a, outcome, _, hanalyse, bind_eq_ok.2 ⟨_, hanalyse, bind_eq_ok.2 ⟨outcome, houtcome, rfl⟩⟩, ?_, ?_⟩
  · intro m
    rw [← (ha.lists hsymbols hr).meanings]
    exact OrderedMap.isSome_get?_iff
  · intro m x hx
    have hm : m ∈ a.forest.names := by
      rw [← (ha.lists hsymbols hr).meanings, ← OrderedMap.isSome_get?_iff]
      exact Option.isSome_of_eq_some hx
    obtain ⟨d, hd, hdm⟩ := hholds.meaning m hm
    have hsymbol : r.symbol m = x := by
      rw [Recording.symbol, show r.meanings.get? m = some x from hx]
      rfl
    exact ⟨d, hsymbol ▸ hd, hdm.name⟩

/-! ### Obtained symbols -/

/-- The symbols that can be obtained from the current file: those of its meanings, and what they mention. -/
inductive Obtains (s : Session) : Symbol → Prop
  | meaning {m : Text} {x : Symbol} (h : s.meaning? m = some x) : Obtains s x
  | mentioned {x z : Symbol} {y : Slot} (hx : Obtains s x) (hy : s.table.slot x = .ok y) (hz : z ∈ y.symbols) :
      Obtains s z

/-- The symbols of the current file keep to its arena. -/
def Tidy (s : Session) : Prop := ∀ r, s.current = some r → s.table = r.table ∧ r.Kept r.arena

theorem tidy_new (settings : Settings) : ({ settings } : Session).Tidy := by
  intro r hr
  cases hr

/-- What analysing a file does to the arenas: it leaves the released ones as they are and adds its own. -/
theorem arenas_of_analyse (h : s.analyse file = .ok (a, s')) : ∃ r, s'.current = some r ∧ s'.table = r.table ∧
    r.Kept s.released.arenas.length ∧ ∃ added, s'.table.arenas = s.released.arenas ++ added := by
  obtain ⟨-, r, hr, rfl⟩ := analyse_eq_ok.1 h
  refine ⟨r, rfl, rfl, record_kept hr, ?_⟩
  rw [record_eq] at hr
  cases hfresh : a.record {} with
  | error e =>
    rw [hfresh] at hr
    cases hr
  | ok r₀ =>
    rw [hfresh] at hr
    obtain rfl := Except.ok.inj hr
    exact ⟨_, rfl⟩

theorem tidy_of_analyse (h : s.analyse file = .ok (a, s')) : s'.Tidy := by
  obtain ⟨r, hcurrent, htable, hkept, -⟩ := arenas_of_analyse h
  intro r' hr'
  obtain rfl := Option.some.inj (hcurrent.symm.trans hr')
  exact ⟨htable, hkept.arena.symm ▸ hkept⟩

/-- What is obtained from the current file belongs to its arena and can be read. -/
theorem Tidy.exists_live (hs : s.Tidy) {x : Symbol} (hx : s.Obtains x) :
    ∃ r, s.current = some r ∧ s.table.Live r.arena x := by
  induction hx with
  | meaning h =>
    obtain ⟨r, hr, hget⟩ := Option.bind_eq_some_iff.1 h
    obtain ⟨htable, hkept⟩ := hs r hr
    exact ⟨r, hr, htable ▸ hkept.meanings _ (OrderedMap.mem_values_of_get? hget)⟩
  | mentioned _ hy hz ih =>
    obtain ⟨r, hr, hlive⟩ := ih
    obtain ⟨htable, hkept⟩ := hs r hr
    exact ⟨r, hr, (htable ▸ hkept.closed : s.table.Closed r.arena).live _ _ hlive hy _ hz⟩

theorem Tidy.meaning_ne_none (hs : s.Tidy) (m : Text) : s.meaning? m ≠ some none := by
  intro h
  obtain ⟨r, hr, hget⟩ := Option.bind_eq_some_iff.1 h
  exact (hs r hr).2.present (OrderedMap.mem_values_of_get? hget)

/-! ### Released arenas -/

/-- The fault for a handle whose arena has been released once since. -/
def stale (h : Handle) : Fault := .staleHandle h.index.toNat h.generation.toNat (h.generation + 1).toNat

/-- The arena of a handle has been released since, and it is not that of the current file. -/
def Retired (s : Session) (h : Handle) : Prop :=
  (∃ arena, s.table.arenas[h.arena]? = some arena ∧ arena.id = h.arena ∧ arena.generation = h.generation + 1) ∧
    ∀ r, s.current = some r → r.arena ≠ h.arena

theorem Retired.slot {h : Handle} (hs : s.Retired h) : s.table.slot (some h) = .error (stale h) := by
  obtain ⟨⟨arena, harena, hid, hgeneration⟩, -⟩ := hs
  have hne : h.generation ≠ h.generation + 1 := by grind
  simp [SymbolTable.slot, harena, Arena.read, hid, hgeneration, hne, stale]

/-- An arena that is not the current one keeps its place when the next file is analysed, and is not used again. -/
theorem Retired.of_released {h : Handle} {arena : Arena Slot} (hanalyse : s.analyse file = .ok (a, s'))
    (harena : s.released.arenas[h.arena]? = some arena) (hid : arena.id = h.arena)
    (hgeneration : arena.generation = h.generation + 1) : s'.Retired h := by
  obtain ⟨r, hcurrent, -, hkept, added, harenas⟩ := arenas_of_analyse hanalyse
  have hlt : h.arena < s.released.arenas.length := (List.getElem?_eq_some_iff.1 harena).1
  refine ⟨⟨arena, by rw [harenas, List.getElem?_append_left hlt, harena], hid, hgeneration⟩, ?_⟩
  intro r' hr'
  obtain rfl := Option.some.inj (hcurrent.symm.trans hr')
  rw [hkept.arena]
  exact hlt.ne'

/-- The next file retires the symbols of the current one. -/
theorem Tidy.retired (hs : s.Tidy) {h : Handle} (hx : s.Obtains (some h)) (hanalyse : s.analyse file = .ok (a, s')) :
    s'.Retired h := by
  obtain ⟨r, hr, hlive⟩ := hs.exists_live hx
  obtain ⟨harena, x, hslot⟩ := hlive h rfl
  obtain ⟨_, arena, hsame, hget, hid, hgeneration, -⟩ := SymbolTable.slot_eq_ok.1 hslot
  obtain rfl := Option.some.inj hsame
  have hreleased : s.released.arenas[h.arena]? = some arena.release := by
    rw [released_eq hr, SymbolTable.release, ← harena, List.getElem?_modify_eq, hget]
    rfl
  exact .of_released hanalyse hreleased hid.symm (congrArg (· + 1) hgeneration.symm)

theorem Retired.analyse {h : Handle} (hs : s.Retired h) (hanalyse : s.analyse file = .ok (a, s')) : s'.Retired h := by
  obtain ⟨⟨arena, harena, hid, hgeneration⟩, hcurrent⟩ := hs
  have hreleased : s.released.arenas[h.arena]? = some arena := by
    cases hr : s.current with
    | none => rwa [released, hr]
    | some r => rw [released_eq hr, SymbolTable.release, List.getElem?_modify_ne _ _ (hcurrent r hr), harena]
  exact .of_released hanalyse hreleased hid hgeneration

/-! ### Runs -/

/-- The sessions that a session leads to by taking the given files, whether or not code is generated for them, and each
in some language. -/
inductive Leads : Session → List DeclFile → Session → Prop
  | done {s : Session} : Leads s [] s
  | analyse {lang : Language} {s s₁ s' : Session} {file : DeclFile} {a : Analysis} {rest : List DeclFile}
      (h : s.analyse file = .ok (a, s₁)) (hrest : Leads s₁ rest s') : Leads s (file :: rest) s'
  | generate {lang : Language} {s s₁ s' : Session} {file : DeclFile} {outcome : Except Rejection Code.FileCode}
      {rest : List DeclFile} (h : s.generate file = .ok (outcome, s₁)) (hrest : Leads s₁ rest s') :
      Leads s (file :: rest) s'

variable {files : List DeclFile}

/-- What every analysis keeps holds after a run. -/
theorem Leads.keeps {P : Session → Prop}
    (step : ∀ [Language] {s s' : Session} {file : DeclFile} {a : Analysis}, P s →
      s.analyse file = .ok (a, s') → P s')
    (h : Leads s files s') (hs : P s) : P s' := by
  induction h with
  | done => exact hs
  -- generating code changes a session as analysing does
  | analyse h _ ih => exact ih (step hs h)
  | generate h _ ih =>
    obtain ⟨a, ha⟩ := exists_analyse_of_generate h
    exact ih (step hs ha)

theorem Leads.exists_analyse (h : Leads s files s') (hfiles : files ≠ []) :
    ∃ lang file a s₁ rest, @Session.analyse lang s file = .ok (a, s₁) ∧ Leads s₁ rest s' := by
  cases h with
  | done => exact absurd rfl hfiles
  | analyse h hrest => exact ⟨_, _, _, _, _, h, hrest⟩
  | generate h hrest =>
    obtain ⟨a, ha⟩ := exists_analyse_of_generate h
    exact ⟨_, _, a, _, _, ha, hrest⟩

theorem Leads.settings_eq (h : Leads s files s') : s'.settings = s.settings :=
  h.keeps (P := fun s' => s'.settings = s.settings) (fun hs hanalyse => by
    obtain ⟨-, r, -, rfl⟩ := analyse_eq_ok.1 hanalyse
    exact hs) rfl

theorem Leads.tidy (h : Leads s files s') (hs : s.Tidy) : s'.Tidy :=
  h.keeps (fun _ hanalyse => tidy_of_analyse hanalyse) hs

/-- A session takes a file as a new one with the given settings: with the same findings and the same code, and with the
symbols shifted behind the arenas that it has.  It does take the file, if the symbols fit into an arena. -/
structure ActsFresh [Language] (settings : Settings) (s : Session) (file : DeclFile) : Prop where
  analyse : s.analyse file =
    (({ settings } : Session).analyse file).map fun x => (x.1, x.2.behind s.released.arenas)
  generate : s.generate file =
    (({ settings } : Session).generate file).map fun x => (x.1, x.2.behind s.released.arenas)
  takes : declarationCount file ≤ 4294967296 → ∃ a outcome s', s.analyse file = .ok (a, s') ∧
    s.generate file = .ok (outcome, s') ∧ s'.Offers a

/-- A session that has taken files takes any other file as a new session does.  The symbols that were obtained before
its last files are stale, and those of its current file can be read. -/
theorem Leads.reused {settings : Settings} {earlier later : List DeclFile} (h₁ : Leads { settings } earlier s₁)
    (h : Leads s₁ later s) : (∀ file, s.ActsFresh settings file) ∧
      (later ≠ [] → ∀ x, s₁.Obtains (some x) → s.table.Refuses (some x) (stale x)) ∧
      (∀ m x, s.meaning? m = some x → ∃ y, s.table.slot x = .ok y) ∧
      ∀ x, s.Obtains (some x) → ∃ y, s.table.slot (some x) = .ok y := by
  have hsettings : s.settings = settings := h.settings_eq.trans h₁.settings_eq
  have htidy₁ := h₁.tidy (tidy_new settings)
  have htidy := h.tidy htidy₁
  have hread : ∀ x, s.Obtains (some x) → ∃ y, s.table.slot (some x) = .ok y := by
    intro x hx
    obtain ⟨r, -, hlive⟩ := htidy.exists_live hx
    exact (hlive x rfl).2
  refine ⟨fun file => ?_, fun hlater x hx => ?_, fun m x hm => ?_, hread⟩
  · subst hsettings
    exact ⟨s.analyse_eq_fresh file, s.generate_eq_fresh file, s.exists_analyse file⟩
  · -- the first of the later files retires the symbol, and the others leave it so
    obtain ⟨lang', file, a, s₂, rest, hanalyse, hrest⟩ := h.exists_analyse hlater
    have hretired : s.Retired x :=
      hrest.keeps (P := (Retired · x)) (fun hs hanalyse => hs.analyse hanalyse) (htidy₁.retired hx hanalyse)
    exact SymbolTable.refuses_of_slot hretired.slot
  · cases x with
    | none => exact absurd hm (htidy.meaning_ne_none m)
    | some x => exact hread x (.meaning hm)

/-- A session gives the symbol of a root, and goes on with a file that has findings and with the first one again. -/
theorem Leads.reused_branches : ∃ s₁ s x, Leads { settings := {} } [branches] s₁ ∧ Leads s₁ [tangled, branches] s ∧
    s₁.meaning? "Tree" = some (some x) ∧ s.table.Refuses (some x) (stale x) ∧ @ActsFresh .english {} s tangled ∧
    ∃ y z, s.meaning? "Tree" = some y ∧ s.table.slot y = .ok z := by
  have hbranches : declarationCount branches ≤ 4294967296 := by decide
  have hroot : ("Tree" : Text) ∈ (@Forest.ofDecls .english (arenaOf {} branches) branches.meanings).1.names := by
    decide +kernel
  -- whichever session takes the file, it has a symbol for the root
  have htree : ∀ s : Session, s.settings = {} → ∃ a s', @Session.analyse .english s branches = .ok (a, s') ∧
      (s'.meaning? "Tree").isSome := by
    intro s hs
    obtain ⟨a, -, s', hanalyse, -, hoffers, -⟩ := @Session.exists_analyse .english s branches hbranches
    refine ⟨a, s', hanalyse, (hoffers _).2 ?_⟩
    rwa [forest_of_ofFile (hs ▸ (analyse_eq_ok.1 hanalyse).1)]
  obtain ⟨a, s₁, h₁, htree₁⟩ := htree { settings := {} } rfl
  have hfirst : Leads { settings := {} } [branches] s₁ := .analyse h₁ .done
  obtain ⟨b, -, s₂, h₂, -⟩ := @Session.exists_analyse .chinese s₁ tangled (by decide)
  have hsecond : Leads s₁ [tangled] s₂ := .analyse h₂ .done
  obtain ⟨c, s, h₃, htree₃⟩ := htree s₂ (hsecond.settings_eq.trans hfirst.settings_eq)
  have hrest : Leads s₁ [tangled, branches] s := .analyse h₂ (.analyse h₃ .done)
  obtain ⟨hfresh, hstale, hread, -⟩ := @Leads.reused .english _ _ _ _ _ hfirst hrest
  obtain ⟨-, -, hread₁, -⟩ := @Leads.reused .english _ _ _ _ _ hfirst .done
  obtain ⟨y, hy⟩ := Option.isSome_iff_exists.1 htree₃
  obtain ⟨z, hz⟩ := hread _ y hy
  obtain ⟨x, hx⟩ := Option.isSome_iff_exists.1 htree₁
  obtain ⟨_, hslot⟩ := hread₁ _ x hx
  cases x with
  | none => cases hslot
  | some x => exact ⟨s₁, s, x, hfirst, hrest, hx, hstale (by simp) x (.meaning hx), hfresh tangled, y, z, hy, hz⟩

end Session

end MeaningForest

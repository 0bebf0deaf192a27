import MeaningForest.Analysis.Basic
import MeaningForest.Proofs.Arguments

/-!
# Files whose names are words

A declaration file in the syntax of its own has words for names (`DeclFile.worded_of_read`); a document can have any
texts.  With words for names the variables of dispatch blocks are words (`isWord_of_mem_dispatchNames`), and what a
signature forwards stands on one line (`Signature.feed_notMem_args`).
-/

namespace MeaningForest

open Text Lexeme

variable {lang : Language}

/-! ### Declarations -/

/-- The names of a meaning and of what it declares are words. -/
structure MeaningDecl.Worded (d : MeaningDecl) : Prop where
  name : IsIdent d.name
  fields : ∀ f ∈ d.fields, IsIdent f.name
  methods : ∀ m ∈ d.methods, IsIdent m.name

instance (d : MeaningDecl) : Decidable d.Worded :=
  decidable_of_iff (IsIdent d.name ∧ (∀ f ∈ d.fields, IsIdent f.name) ∧ ∀ m ∈ d.methods, IsIdent m.name)
    ⟨fun h => ⟨h.1, h.2.1, h.2.2⟩, fun h => ⟨h.name, h.fields, h.methods⟩⟩

/-- The names in a file are words. -/
def DeclFile.Worded (f : DeclFile) : Prop := ∀ d ∈ f.meanings, d.Worded

instance (f : DeclFile) : Decidable f.Worded := inferInstanceAs (Decidable (∀ d ∈ f.meanings, d.Worded))

theorem DeclFile.worded_of_read {name source : Text} {result : ReadResult}
    (h : DeclFile.read name source = .ok result) : result.file.Worded := by
  intro d hd
  have hd := (captured_of_read h).meanings d hd
  exact ⟨hd.name, fun f hf => (hd.fields f hf).name, fun m hm => (hd.methods m hm).name⟩

/-! ### Names of the host -/

theorem Host.Word.isWord {t : Text} (h : Host.Word t) : IsWord t := by
  intro b hb
  by_contra hpart
  -- such a byte would stand alone, and be part of no word of the host
  have hbyte : ∀ n < 256, Lexeme.isWordPart n.toUInt8 = false → n < 0x80 ∧ Host.isWordPart n = false := by
    decide +kernel
  obtain ⟨hascii, hhost⟩ := hbyte b.toNat b.toNat_lt (by simpa using hpart)
  exact h.notMem (UInt8.lt_iff_toNat_lt.2 hascii) hhost hb

theorem Text.IsWord.notMem {t : Text} (h : IsWord t) {b : UInt8} (hb : Lexeme.isWordPart b = false) : b ∉ t :=
  fun hmem => Bool.false_ne_true (hb.symm.trans (h b hmem))

/-! ### Generated names -/

theorem Text.IsIdent.append {t u : Text} (h : IsIdent t) (hu : IsWord u) : IsIdent (t ++ u) :=
  ⟨h.word.append hu, List.append_ne_nil_of_left_ne_nil h.nonempty u⟩

theorem isIdent_freeName {base : Text} (h : IsIdent base) (taken : List Text) : IsIdent (freeName base taken) := by
  refine ⟨isWord_freeName h.word taken, ?_⟩
  obtain ⟨s, hs⟩ := exists_freeName base taken
  rw [hs]
  exact List.append_ne_nil_of_left_ne_nil h.nonempty s

section

variable {m sub : Text} (h : IsWord m)
include h

theorem isIdent_layerName : IsIdent (layerName m) := IsIdent.append (by decide) h.capitalize

theorem isIdent_ctorName : IsIdent (ctorName m) := IsIdent.append (by decide) h.capitalize

theorem isIdent_initName : IsIdent (initName m) := IsIdent.append (by decide) h.capitalize

theorem isIdent_terminalName : IsIdent (terminalName m) := (isIdent_layerName h).append (by decide)

theorem isIdent_infoName : IsIdent (infoName m) := IsIdent.append (by decide) h.capitalize

theorem isIdent_newName : IsIdent (newName m) := IsIdent.append (by decide) h.capitalize

theorem isIdent_variantName : IsIdent (variantName m) := (isIdent_layerName h).append (by decide)

theorem isIdent_toLayerName (hsub : IsWord sub) : IsIdent (toLayerName m sub) :=
  ((isIdent_layerName h).append (by decide)).append hsub.capitalize

/-- The package-level names of a meaning are words if its name is one and those of its submeanings are. -/
theorem isIdent_of_mem_topLevelNames {subs : List Text} (hsubs : ∀ sub ∈ subs, IsWord sub) {name : Text}
    (hname : name ∈ topLevelNames m subs) : IsIdent name := by
  simp only [topLevelNames, List.cons_append, List.nil_append, List.mem_cons, List.mem_map] at hname
  rcases hname with rfl | rfl | rfl | rfl | rfl | rfl | rfl | ⟨sub, hsub, rfl⟩
  · exact isIdent_layerName h
  · exact isIdent_variantName h
  · exact isIdent_terminalName h
  · exact isIdent_infoName h
  · exact isIdent_ctorName h
  · exact isIdent_initName h
  · exact isIdent_newName h
  · exact isIdent_toLayerName h (hsubs sub hsub)

end

/-! ### Names in blocks -/

theorem isWord_dispatchName {m : Text} (h : IsWord m) : IsWord (dispatchName m) :=
    IsWord.append (by decide) h.capitalize

theorem isWord_downcastName {m : Text} (h : IsWord m) : IsWord (downcastName m) :=
    IsWord.append (by decide) h.capitalize

theorem isWord_of_mem_dispatchNames {params path : List Text} (h : ∀ m ∈ path, IsWord m) {v : Text}
    (hv : v ∈ dispatchNames params path) : IsWord v := by
  induction path generalizing params with
  | nil => cases hv
  | cons m path ih =>
    obtain ⟨hm, hpath⟩ := List.forall_mem_cons.1 h
    rcases List.mem_cons.1 hv with rfl | hv
    · exact isWord_freeName (isWord_dispatchName hm) _
    · exact ih hpath hv

theorem Host.notMem_join {names : List Text} (h : ∀ name ∈ names, Host.IsName name) {b : UInt8}
    (hb : Lexeme.isWordPart b = false) (hseparator : b ∉ Text.ofString ", ") : b ∉ Text.join ", " names := by
  induction names with
  | nil => simp [Text.join]
  | cons name names ih =>
    obtain ⟨hname, hnames⟩ := List.forall_mem_cons.1 h
    have hname := hname.word.isWord.notMem hb
    cases names with
    | nil => simpa [Text.join] using hname
    | cons next names =>
      rw [Text.join, List.mem_append, List.mem_append, not_or, not_or]
      · exact ⟨⟨hname, hseparator⟩, ih hnames⟩
      · exact List.cons_ne_nil _ _

theorem Host.feed_notMem_namesText (spread : Bool) {names : List Text} (h : ∀ name ∈ names, Host.IsName name) :
    0x0a ∉ Host.namesText spread names := by
  rw [Host.namesText, List.mem_append, not_or]
  refine ⟨Host.notMem_join h (by decide) (by decide), ?_⟩
  split <;> decide

/-- The arguments that forward the parameters of a signature stand on one line. -/
theorem Signature.feed_notMem_args {params : Text} {s : Signature} (h : parse params = .ok s)
    (hnamed : s.unnamed = false) : 0x0a ∉ s.args := by
  obtain ⟨ps, -, hps⟩ := exists_describes h hnamed
  rw [s.args_eq hps.variadic_eq_false]
  exact Host.feed_notMem_namesText _ fun name hname => (hps.spelled name hname).1

end MeaningForest

import MeaningForest.Proofs.Parts
import MeaningForest.Proofs.Reordering

/-!
# Hierarchies in one file

Hierarchies that stand in one file do not affect each other.  If the declarations of a file without findings are those
of two lists in any interleaving, and no meaning of one extends a meaning of the other, then each list by itself has no
findings, and every meaning has the same code in the file as in a file of its own list (`Analysis.blocks_apart`).

Each of the lists is a part of the file: it is left when the meanings of the other are left out.
-/

namespace MeaningForest

variable {lang : Language}

/-! ### Interleavings -/

/-- `Interleaved u v w`: the elements of `w` are those of `u` and those of `v`, each in their order. -/
inductive Interleaved {α : Type} : List α → List α → List α → Prop
  | nil : Interleaved [] [] []
  | left (x : α) {u v w : List α} (h : Interleaved u v w) : Interleaved (x :: u) v (x :: w)
  | right (x : α) {u v w : List α} (h : Interleaved u v w) : Interleaved u (x :: v) (x :: w)

namespace Interleaved

variable {α : Type} {u v w : List α}

theorem symm (h : Interleaved u v w) : Interleaved v u w := by
  induction h with
  | nil => exact .nil
  | left x _ ih => exact .right x ih
  | right x _ ih => exact .left x ih

theorem perm (h : Interleaved u v w) : w.Perm (u ++ v) := by
  induction h with
  | nil => exact .refl _
  | left x _ ih => exact ih.cons x
  | right x _ ih => exact (ih.cons x).trans List.perm_middle.symm

theorem mem_iff (h : Interleaved u v w) {x : α} : x ∈ w ↔ x ∈ u ∨ x ∈ v := by
  rw [h.perm.mem_iff, List.mem_append]

/-- A list is left when the elements of the other are left out. -/
theorem filter_eq (h : Interleaved u v w) {p : α → Bool} (hu : ∀ x ∈ u, p x) (hv : ∀ x ∈ v, p x = false) :
    w.filter p = u := by
  induction h with
  | nil => rfl
  | left x _ ih =>
    rw [List.filter_cons_of_pos (hu x (by simp)), ih (fun y hy => hu y (List.mem_cons_of_mem x hy)) hv]
  | right x _ ih =>
    rw [List.filter_cons_of_neg (by simp [hv x]), ih hu fun y hy => hv y (List.mem_cons_of_mem x hy)]

end Interleaved

/-- Whether a meaning extends another. -/
def MeaningDecl.Extends (d e : MeaningDecl) : Prop := d.parent ≠ [] ∧ d.parent = e.name

instance (d e : MeaningDecl) : Decidable (d.Extends e) := inferInstanceAs (Decidable (_ ∧ _))

/-! ### Blocks of a generated file -/

namespace Code.FileCode

/-- The text before the first meaning. -/
def header (c : FileCode) : Text := { c with meanings := [] }.text

/-- The text of a meaning. -/
def block? (c : FileCode) (m : Text) : Option Text :=
  (c.meanings.find? (·.handle.meaning = m)).map fun part => render part.lines

theorem text_eq (c : FileCode) : c.text = c.header ++ c.meanings.flatMap fun part => render part.lines := by
  simp only [header, text, lines, restLines, render, List.flatMap_append, List.append_assoc, List.flatMap_nil,
    List.flatMap_assoc, List.nil_append]
  rfl

/-- Leaving out other meanings does not change the text of a meaning. -/
theorem block?_filter (c : FileCode) {keep : Text → Bool} {m : Text} (hm : keep m) :
    { c with meanings := c.meanings.filter fun part => keep part.handle.meaning }.block? m = c.block? m := by
  rw [block?, block?, List.find?_filter]
  congr 2
  funext part
  rw [decide_eq_decide, decide_eq_true_eq, and_iff_right_iff_imp]
  rintro rfl
  exact hm

end Code.FileCode

namespace Analysis

open Code

variable {settings : Settings} {file : DeclFile} {a : Analysis} {code : FileCode}

/-- The analysis of a file has no findings, and the file is given the code. -/
def Yields [Language] (settings : Settings) (file : DeclFile) (code : FileCode) : Prop :=
  ∃ a, ofFile settings file = .ok a ∧ a.findings = [] ∧ a.fileCode settings = .ok code

namespace Yields

variable (h : Yields settings file code)

include h

theorem names_eq : code.meanings.map (·.handle.meaning) = file.meanings.map (·.name) := by
  obtain ⟨a, ha, hclean, hcode⟩ := h
  obtain ⟨hcomplete, rfl⟩ := complete_of_ofFile ha
  rw [hcomplete.map_meaning hcode, ← hcomplete.decls_eq hclean, List.map_map]
  rfl

theorem exists_proper : ∃ arena, Forest.Proper arena file.meanings := by
  obtain ⟨a, ha, hclean, -⟩ := h
  obtain ⟨hcomplete, rfl⟩ := complete_of_ofFile ha
  exact ⟨a.arena, hcomplete.proper hclean⟩

theorem block?_of_mem {part : MeaningCode} (hpart : part ∈ code.meanings) :
    code.block? part.handle.meaning = some (render part.lines) := by
  obtain ⟨a, ha, -, hcode⟩ := h
  obtain ⟨hcomplete, -⟩ := complete_of_ofFile ha
  have hfind : code.meanings.find? (·.handle.meaning = part.handle.meaning) = some part :=
    find?_key hpart fun part' hpart' hname => hcomplete.part_unique hcode hpart' hpart hname
  rw [FileCode.block?, hfind]
  rfl

/-- Every meaning has its text. -/
theorem exists_block {d : MeaningDecl} (hd : d ∈ file.meanings) : ∃ text, code.block? d.name = some text := by
  have hname : d.name ∈ code.meanings.map (·.handle.meaning) := h.names_eq ▸ List.mem_map_of_mem hd
  obtain ⟨part, hpart, hname⟩ := List.mem_map.1 hname
  exact ⟨_, hname ▸ h.block?_of_mem hpart⟩

/-- The text of a generated file: the header, then the texts of the meanings in the order of declaration. -/
theorem text_eq : code.text = code.header ++ file.meanings.flatMap fun d => (code.block? d.name).getD [] := by
  have hblocks : code.meanings.flatMap (fun part => render part.lines) =
      (code.meanings.map (·.handle.meaning)).flatMap fun m => (code.block? m).getD [] := by
    rw [List.flatMap_map, List.flatMap_def, List.flatMap_def]
    congr 1
    refine List.map_congr_left fun part hpart => ?_
    rw [h.block?_of_mem hpart]
    rfl
  rw [code.text_eq, hblocks, h.names_eq, List.flatMap_map]

end Yields

/-- What is left of a file when other meanings are left out yields the same texts, if with a meaning its parent and its
submeanings are left. -/
theorem Yields.restrict {keep : Text → Bool} (h : Yields settings file code)
    (hkeep : ∀ d ∈ file.meanings, d.parent ≠ [] → keep d.parent = keep d.name) :
    ∃ code', Yields settings { file with meanings := file.meanings.filter fun d => keep d.name } code' ∧
      code'.header = code.header ∧ ∀ m, keep m → code'.block? m = code.block? m := by
  obtain ⟨a, ha, hclean, hcode⟩ := h
  obtain ⟨-, rfl⟩ := complete_of_ofFile ha
  obtain ⟨b, hb, -⟩ := exists_ofFile settings { a.file with meanings := a.file.meanings.filter fun d => keep d.name }
  have hpart : Part settings keep a b := ⟨ha, hb, hclean, hkeep⟩
  exact ⟨_, ⟨b, hb, hpart.findings_eq_nil, hpart.exists_fileCode hcode⟩, rfl, fun m hm => code.block?_filter hm⟩

/-- Parents stay in their list. -/
theorem keep_parent {keep : Text → Bool} {arena : Text} {ds ds₁ ds₂ : List MeaningDecl}
    (hproper : Forest.Proper arena ds) (hsplit : Interleaved ds₁ ds₂ ds)
    (hapart : ∀ d₁ ∈ ds₁, ∀ d₂ ∈ ds₂, ¬ d₁.Extends d₂ ∧ ¬ d₂.Extends d₁) (hds₁ : ∀ d ∈ ds₁, keep d.name)
    (hds₂ : ∀ d ∈ ds₂, keep d.name = false) : ∀ d ∈ ds, d.parent ≠ [] → keep d.parent = keep d.name := by
  intro d hd hne
  obtain ⟨e, he, hname⟩ := List.mem_map.1 (hproper.parents d hd hne)
  rw [hsplit.mem_iff] at hd he
  rw [← hname]
  rcases hd with hd | hd
  · rcases he with he | he
    · rw [hds₁ d hd, hds₁ e he]
    · exact absurd ⟨hne, hname.symm⟩ (hapart d hd e he).1
  · rcases he with he | he
    · exact absurd ⟨hne, hname.symm⟩ (hapart e he d hd).2
    · rw [hds₂ d hd, hds₂ e he]

/-- One of two interleaved lists of declarations yields the same texts by itself. -/
theorem Yields.of_interleaved {ds₁ ds₂ : List MeaningDecl} (h : Yields settings file code)
    (hsplit : Interleaved ds₁ ds₂ file.meanings)
    (hapart : ∀ d₁ ∈ ds₁, ∀ d₂ ∈ ds₂, ¬ d₁.Extends d₂ ∧ ¬ d₂.Extends d₁) :
    ∃ code₁, Yields settings { file with meanings := ds₁ } code₁ ∧ code₁.header = code.header ∧
      ∀ d ∈ ds₁, ∃ text, code₁.block? d.name = some text ∧ code.block? d.name = some text := by
  obtain ⟨arena, hproper⟩ := h.exists_proper
  let keep : Text → Bool := fun m => ds₁.any (·.name = m)
  have hkeep : ∀ d ∈ ds₁, keep d.name := fun d hd => List.any_eq_true.2 ⟨d, hd, by simp⟩
  -- names are distinct, so no meaning of the other list is kept
  have hother : ∀ d ∈ ds₂, keep d.name = false := by
    have hnodup := (hsplit.perm.map (·.name)).nodup_iff.1 hproper.nodup
    rw [List.map_append, List.nodup_append] at hnodup
    intro d hd
    rw [List.any_eq_false]
    intro e he hname
    rw [decide_eq_true_eq] at hname
    exact hnodup.2.2 e.name (List.mem_map_of_mem he) d.name (List.mem_map_of_mem hd) hname
  obtain ⟨code₁, hcode₁, hheader, hblock⟩ := h.restrict (keep_parent hproper hsplit hapart hkeep hother)
  rw [hsplit.filter_eq hkeep hother] at hcode₁
  refine ⟨code₁, hcode₁, hheader, fun d hd => ?_⟩
  obtain ⟨text, htext⟩ := hcode₁.exists_block hd
  exact ⟨text, htext, (hblock d.name (hkeep d hd)).symm.trans htext⟩

/-- Hierarchies that stand in one file do not affect each other.  If a file without findings declares the meanings of
two lists in any interleaving, and no meaning of one list extends a meaning of the other, then each list by itself has
no findings, and every meaning has the same text in the file as in a file of its own list.  The text of the file is the
header, which all three have, and the texts of the meanings in the order of the file. -/
theorem blocks_apart {ds₁ ds₂ : List MeaningDecl} (hsplit : Interleaved ds₁ ds₂ file.meanings)
    (hapart : ∀ d₁ ∈ ds₁, ∀ d₂ ∈ ds₂, ¬ d₁.Extends d₂ ∧ ¬ d₂.Extends d₁) (ha : ofFile settings file = .ok a)
    (hclean : a.findings = []) : ∃ code code₁ code₂, Yields settings file code ∧
      Yields settings { file with meanings := ds₁ } code₁ ∧ Yields settings { file with meanings := ds₂ } code₂ ∧
      (∀ d ∈ ds₁, ∃ text, code₁.block? d.name = some text ∧ code.block? d.name = some text) ∧
      (∀ d ∈ ds₂, ∃ text, code₂.block? d.name = some text ∧ code.block? d.name = some text) ∧
      code₁.header = code.header ∧ code₂.header = code.header ∧
      code.text = code.header ++ file.meanings.flatMap fun d => (code.block? d.name).getD [] := by
  obtain ⟨code, hcode⟩ := (complete_of_ofFile ha).1.exists_fileCode settings
  have h : Yields settings file code := ⟨a, ha, hclean, hcode⟩
  obtain ⟨code₁, hcode₁, hheader₁, hblocks₁⟩ := h.of_interleaved hsplit hapart
  have hapart' : ∀ d₂ ∈ ds₂, ∀ d₁ ∈ ds₁, ¬ d₂.Extends d₁ ∧ ¬ d₁.Extends d₂ := fun d₂ hd₂ d₁ hd₁ =>
    (hapart d₁ hd₁ d₂ hd₂).symm
  obtain ⟨code₂, hcode₂, hheader₂, hblocks₂⟩ := h.of_interleaved hsplit.symm hapart'
  exact ⟨code, code₁, code₂, h, hcode₁, hcode₂, hblocks₁, hblocks₂, hheader₁, hheader₂, h.text_eq⟩

/-- The same meaning in a hierarchy of other names. -/
def wild (d : MeaningDecl) : MeaningDecl :=
  { d with name := "Wild" ++ d.name, parent := if d.parent.isEmpty then [] else "Wild" ++ d.parent }

/-- Two hierarchies of one shape, their meanings in turn. -/
def groves : DeclFile := { branches with meanings := branches.meanings.flatMap fun d => [d, wild d] }

theorem blocks_apart_groves : ∃ code code₁ code₂, @Yields .english {} groves code ∧
    @Yields .english {} branches code₁ ∧
    @Yields .english {} { branches with meanings := branches.meanings.map wild } code₂ ∧
    (∀ d ∈ branches.meanings, ∃ text, code₁.block? d.name = some text ∧ code.block? d.name = some text) ∧
    (∀ d ∈ branches.meanings.map wild, ∃ text, code₂.block? d.name = some text ∧ code.block? d.name = some text) ∧
    code₁.header = code.header ∧ code₂.header = code.header ∧
    code.text = code.header ++ groves.meanings.flatMap fun d => (code.block? d.name).getD [] := by
  obtain ⟨a, ha, hclean⟩ := exists_clean (by decide +kernel : @cleanInOrder .english {} groves)
  have hsplit : Interleaved branches.meanings (branches.meanings.map wild) groves.meanings :=
    .left _ (.right _ (.left _ (.right _ (.left _ (.right _ .nil)))))
  exact blocks_apart hsplit (by decide) ha hclean

end Analysis

end MeaningForest

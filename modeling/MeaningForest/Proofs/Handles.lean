import MeaningForest.Proofs.Names

/-!
# Handles at run time

A handle of a root meaning refers to the storage of an object, and a handle of any other meaning has the handle of the
parent embedded.  So a handle has inside it one handle for each meaning of the ancestry, all for the same storage.

* `handlePath_concat`: the selectors from a meaning up to an ancestor are its parent and the selectors from there;
* `Complete.select_eq`: in a handle of the declared types they lead to the handle of that ancestor.
-/

namespace MeaningForest

open Code

variable {lang : Language}

namespace Code

inductive HandleValue (ρ : Type) where
  | root (meaning : Text) (storage : ρ)
  | sub (meaning : Text) (embedded : HandleValue ρ)
  deriving DecidableEq, Repr

namespace HandleValue

variable {ρ : Type}

def meaning : HandleValue ρ → Text
  | root m _ => m
  | sub m _ => m

/-- What the root handle inside refers to. -/
def storage : HandleValue ρ → ρ
  | root _ r => r
  | sub _ h => h.storage

def top : HandleValue ρ → Text
  | root m _ => m
  | sub _ h => h.top

/-- The meanings of the embedded handles, the outermost first. -/
def embedded : HandleValue ρ → List Text
  | root _ _ => []
  | sub _ h => h.meaning :: h.embedded

/-- Selects embedded handles one after the other; such a field has the name of its type. -/
def select : List Text → HandleValue ρ → Option (HandleValue ρ)
  | [], h => some h
  | s :: rest, sub _ h => if h.meaning = s then h.select rest else none
  | _ :: _, root _ _ => none

/-- The handle types are those of the generated file. -/
def Typed (code : FileCode) : HandleValue ρ → Prop
  | root m _ => ∃ part ∈ code.meanings, part.handle.meaning = m ∧ part.handle.parent = none
  | sub m h => (∃ part ∈ code.meanings, part.handle.meaning = m ∧ part.handle.parent = some h.meaning) ∧ h.Typed code

/-- The handle of the last of the given meanings, around that of a root. -/
def around (h : HandleValue ρ) (below : List Text) : HandleValue ρ := below.foldl (fun h m => sub m h) h

theorem head?_embedded (h : HandleValue ρ) : (h.embedded.reverse ++ [h.meaning]).head? = some h.top := by
  induction h with
  | root m r => rfl
  | sub m h ih => simpa [embedded, top, List.head?_append] using ih

/-- The embedded handles lead to the root handle. -/
theorem select_embedded (h : HandleValue ρ) : h.select h.embedded = some (root h.top h.storage) := by
  induction h with
  | root m r => rfl
  | sub m h ih => exact (if_pos rfl).trans ih

theorem storage_around (h : HandleValue ρ) (below : List Text) : (h.around below).storage = h.storage := by
  induction below generalizing h with
  | nil => rfl
  | cons m below ih => exact ih (sub m h)

end HandleValue

/-- The handle that a factory makes for new storage. -/
def ConstructorCode.newHandle {ρ : Type} (c : ConstructorCode) (r : ρ) : HandleValue ρ :=
  (HandleValue.root c.root r).around c.below

end Code

namespace Analysis

/-! ### Selectors -/

variable {a : Analysis}

theorem handlePath_self {l : List Text} {m : Text} (hnd : (l ++ [m]).Nodup) : handlePath (l ++ [m]) m m = .ok [] := by
  have hpath : pathUp? (l ++ [] ++ [m]) m m = some [].reverse := pathUp?_eq (by simpa using hnd) rfl
  rw [List.append_nil] at hpath
  rw [handlePath, hpath]
  rfl

theorem handlePath_concat {l : List Text} {p m n : Text} (hnd : (l ++ [p] ++ [m]).Nodup) (hn : n ∈ l ++ [p]) :
    ∃ path, handlePath (l ++ [p]) p n = .ok path ∧ handlePath (l ++ [p] ++ [m]) m n = .ok (p :: path) := by
  obtain ⟨u, w, hsplit⟩ := List.append_of_mem hn
  -- `v` is what stands between `n`, which belongs to it, and `p`
  obtain ⟨v, hv⟩ : ∃ v, n :: w = v ++ [p] := by
    rcases List.eq_nil_or_concat w with rfl | ⟨w', x, rfl⟩
    · obtain ⟨-, hlast⟩ := List.append_inj' hsplit rfl
      exact ⟨[], by simp [List.singleton_inj.1 hlast]⟩
    · have hcut : l ++ [p] = (u ++ n :: w') ++ [x] := by simpa using hsplit
      obtain ⟨-, hlast⟩ := List.append_inj' hcut rfl
      exact ⟨n :: w', by simp [List.singleton_inj.1 hlast]⟩
  have hl : l ++ [p] = u ++ v ++ [p] := by rw [hsplit, hv, List.append_assoc]
  have hl' : l ++ [p] ++ [m] = u ++ (v ++ [p]) ++ [m] := by rw [hl, List.append_assoc u]
  have hparent : pathUp? (l ++ [p]) p n = some v.reverse := by
    rw [hl]
    refine pathUp?_eq ?_ (by rw [← hv]; rfl)
    rw [← hl]
    exact (List.nodup_append.1 hnd).1
  have hself : pathUp? (l ++ [p] ++ [m]) m n = some (v ++ [p]).reverse := by
    rw [hl']
    refine pathUp?_eq ?_ (by rw [← hv]; rfl)
    rw [← hl']
    exact hnd
  refine ⟨v.reverse, by rw [handlePath, hparent], ?_⟩
  rw [handlePath, hself, List.reverse_append]
  rfl

theorem exists_handlePath {m n : Text} {asc : List Text} (hasc : Lineage a.forest.parent? m asc) (hn : n ∈ asc) :
    ∃ path, handlePath asc m n = .ok path := by
  have hnd := hasc.nodup
  cases hasc with
  | root _ =>
    obtain rfl := List.mem_singleton.1 hn
    exact ⟨[], handlePath_self (l := []) hnd⟩
  | child _ hl =>
    obtain ⟨r, rfl⟩ := hl.exists_eq_append
    rcases List.mem_append.1 hn with hn | hn
    · obtain ⟨path, -, hpath⟩ := handlePath_concat hnd hn
      exact ⟨_, hpath⟩
    · obtain rfl := List.mem_singleton.1 hn
      exact ⟨[], handlePath_self hnd⟩

/-! ### Typed handles -/

theorem Complete.parent?_eq (ha : a.Complete) {p : Profile} (hp : p ∈ a.profiles) :
    p.parent? = a.forest.parent? p.name := by
  obtain ⟨-, -, hasc, -⟩ := ha.exists_root hp
  rw [Profile.parent?]
  generalize p.ascending = asc at hasc
  cases hasc with
  | root hroot => simp [hroot]
  | child hparent hl =>
    obtain ⟨r, rfl⟩ := hl.exists_eq_append
    simp [hparent]

theorem Complete.handle_parent (ha : a.Complete) {settings : Settings} {code : FileCode}
    (hcode : a.fileCode settings = .ok code) {part : MeaningCode} (hpart : part ∈ code.meanings) :
    part.handle.parent = a.forest.parent? part.handle.meaning := by
  obtain ⟨p, hp, root, below, methods, -, rfl⟩ := ha.exists_part hcode hpart
  exact ha.parent?_eq hp

theorem Complete.exists_handle (ha : a.Complete) {settings : Settings} {code : FileCode}
    (hcode : a.fileCode settings = .ok code) {m : Text} (hm : m ∈ a.forest.names) :
    ∃ part ∈ code.meanings, part.handle.meaning = m ∧ part.handle.parent = a.forest.parent? m := by
  rw [← ha.map_meaning hcode] at hm
  obtain ⟨part, hpart, rfl⟩ := List.mem_map.1 hm
  exact ⟨part, hpart, rfl, ha.handle_parent hcode hpart⟩

theorem Complete.typed_root (ha : a.Complete) {settings : Settings} {code : FileCode}
    (hcode : a.fileCode settings = .ok code) {ρ : Type} {m : Text} {r : ρ} (hm : m ∈ a.forest.names)
    (hroot : a.forest.parent? m = none) : (HandleValue.root m r).Typed code := by
  obtain ⟨part, hpart, hmeaning, hparent⟩ := ha.exists_handle hcode hm
  exact ⟨part, hpart, hmeaning, hparent.trans hroot⟩

theorem Complete.typed_sub (ha : a.Complete) {settings : Settings} {code : FileCode}
    (hcode : a.fileCode settings = .ok code) {ρ : Type} {m : Text} {h : HandleValue ρ}
    (hparent : a.forest.parent? m = some h.meaning) (ht : h.Typed code) : (HandleValue.sub m h).Typed code := by
  obtain ⟨part, hpart, hmeaning, hdeclared⟩ := ha.exists_handle hcode (Forest.mem_names_of_parent? hparent)
  exact ⟨⟨part, hpart, hmeaning, hdeclared.trans hparent⟩, ht⟩

theorem Complete.typed_around (ha : a.Complete) {settings : Settings} {code : FileCode}
    (hcode : a.fileCode settings = .ok code) {ρ : Type} {h : HandleValue ρ} (ht : h.Typed code) {below : List Text}
    (hchain : (h.meaning :: below).IsChain fun m n => a.forest.parent? n = some m) :
    (h.around below).Typed code ∧ (h.meaning :: below).getLast? = some (h.around below).meaning := by
  induction below generalizing h with
  | nil => exact ⟨ht, rfl⟩
  | cons m below ih =>
    obtain ⟨hparent, hchain⟩ := List.isChain_cons_cons.1 hchain
    exact ih (h := .sub m h) (ha.typed_sub hcode hparent ht) hchain

/-- The handle that is made for a new object: of the meaning itself, with those of its ancestors inside. -/
theorem Complete.typed_new (ha : a.Complete) {settings : Settings} {code : FileCode}
    (hcode : a.fileCode settings = .ok code) {ρ : Type} (r : ρ) {m : Text} {c : ConstructorCode}
    (hm : m ∈ a.forest.names) (hasc : Lineage a.forest.parent? m (c.root :: c.below)) :
    (c.newHandle r).Typed code ∧ (c.newHandle r).meaning = m ∧ (c.newHandle r).storage = r := by
  have hroot : (HandleValue.root c.root r).Typed code :=
    ha.typed_root hcode (ha.sound.mem_names_of_lineage hasc (by simp) hm) hasc.parent_head
  obtain ⟨ht, hlast⟩ := ha.typed_around hcode hroot hasc.isChain
  exact ⟨ht, Option.some.inj (hlast.symm.trans hasc.getLast?_eq), HandleValue.storage_around _ _⟩

/-- Inside a typed handle are handles for the whole ancestry of its meaning. -/
theorem Complete.lineage_typed (ha : a.Complete) {settings : Settings} {code : FileCode}
    (hcode : a.fileCode settings = .ok code) {ρ : Type} {h : HandleValue ρ} (ht : h.Typed code) :
    Lineage a.forest.parent? h.meaning (h.embedded.reverse ++ [h.meaning]) := by
  induction h with
  | root m r =>
    obtain ⟨part, hpart, rfl, hnone⟩ := ht
    exact .root ((ha.handle_parent hcode hpart).symm.trans hnone)
  | sub m h ih =>
    obtain ⟨⟨part, hpart, rfl, hsome⟩, ht⟩ := ht
    rw [HandleValue.embedded, List.reverse_cons]
    exact .child ((ha.handle_parent hcode hpart).symm.trans hsome) (ih ht)

/-- In a typed handle the selectors to an ancestor lead to its handle, which refers to the same storage. -/
theorem Complete.select_eq (ha : a.Complete) {settings : Settings} {code : FileCode}
    (hcode : a.fileCode settings = .ok code) {ρ : Type} {h : HandleValue ρ} (ht : h.Typed code) {m n : Text}
    (hm : h.meaning = m) {asc path : List Text} (hasc : Lineage a.forest.parent? m asc) (hn : n ∈ asc)
    (hpath : handlePath asc m n = .ok path) :
    ∃ inner, h.select path = some inner ∧ inner.Typed code ∧ inner.meaning = n ∧ inner.storage = h.storage := by
  induction hasc generalizing h path with
  | @root m hroot =>
    obtain rfl := List.mem_singleton.1 hn
    obtain rfl := Except.ok.inj (hpath.symm.trans (handlePath_self (l := []) (by simp)))
    exact ⟨h, rfl, ht, hm, rfl⟩
  | @child m p l hparent hl ih =>
    have hnd := (Lineage.child hparent hl).nodup
    rcases List.mem_append.1 hn with habove | hself
    · obtain ⟨r, rfl⟩ := hl.exists_eq_append
      obtain ⟨rest, hrest, hpath'⟩ := handlePath_concat hnd habove
      obtain rfl := Except.ok.inj (hpath.symm.trans hpath')
      cases h with
      | root x s =>
        -- a root handle has a type without a parent
        obtain ⟨part, hpart, rfl, hnone⟩ := ht
        obtain rfl : part.handle.meaning = m := hm
        rw [ha.handle_parent hcode hpart, hparent] at hnone
        cases hnone
      | sub x h =>
        obtain ⟨⟨part, hpart, rfl, hsome⟩, ht⟩ := ht
        obtain rfl : part.handle.meaning = m := hm
        rw [ha.handle_parent hcode hpart, hparent] at hsome
        have hup : h.meaning = p := (Option.some.inj hsome).symm
        obtain ⟨inner, hselect, hinner⟩ := ih ht hup habove hrest
        exact ⟨inner, by rw [HandleValue.select, if_pos hup, hselect], hinner⟩
    · obtain rfl := List.mem_singleton.1 hself
      obtain rfl := Except.ok.inj (hpath.symm.trans (handlePath_self hnd))
      exact ⟨h, rfl, ht, hm, rfl⟩

end Analysis

end MeaningForest

import MeaningForest.Proofs.Ledger
import MeaningForest.Proofs.Lineage
import Mathlib.Logic.Relation

/-!
# Ancestries of symbols

The parents of meanings are set one by one and in any order, so that they may lead in a circle.  A way up without
repetitions that stays in an arena (`SymbolTable.ParentClosed`) has no more meanings than the arena has symbols
(`SymbolTable.length_le_size`).  So a way that ends keeps to the bound on ancestries, and one that does not end meets
it.

* `SymbolTable.ParentClosed.ascending_eq_ok_iff`: an ancestry is the list of what is passed from a meaning to the root.
* `Ledger.parentClosed_run`: parents stay in the arena in every run that sets no others.
* `Ledger.run_ascendsToRoot`: in such a run, the ancestry of a meaning is endless exactly if its parents lead to no
  root; otherwise it is the list from the root to the meaning, and members are looked up from its end.
-/

namespace MeaningForest

namespace SymbolTable

variable {t : SymbolTable} {k : Nat} {s m a p : Symbol} {l : List Symbol} {α : Type}

/-! ### Parents -/

/-- A symbol of an arena that stands for a meaning. -/
def IsMeaningOf (t : SymbolTable) (k : Nat) (s : Symbol) : Prop := ∃ h d, s = some h ∧ h.arena = k ∧ t.meaning s = .ok d

def HasParent (t : SymbolTable) (s p : Symbol) : Prop := t.parentOf s = .ok (some p)

def IsRoot (t : SymbolTable) (s : Symbol) : Prop := t.parentOf s = .ok none

/-- Following parents from the first symbol, for any number of steps, leads to the second. -/
def LeadsTo (t : SymbolTable) : Symbol → Symbol → Prop := Relation.ReflTransGen t.HasParent

def ReachesRoot (t : SymbolTable) (s : Symbol) : Prop := ∃ r, t.LeadsTo s r ∧ t.IsRoot r

/-- The parents of the meanings of an arena are meanings of the arena. -/
def ParentClosed (t : SymbolTable) (k : Nat) : Prop := ∀ s p, t.IsMeaningOf k s → t.HasParent s p → t.IsMeaningOf k p

/-- A list without repetitions from a root to a meaning, each element being the parent of the next. -/
structure Ascends (t : SymbolTable) (m : Symbol) (l : List Symbol) : Prop where
  nodup : l.Nodup
  root : ∃ r, l.head? = some r ∧ t.IsRoot r
  last : l.getLast? = some m
  linked : l.IsChain fun a b => t.HasParent b a

/-- The parent of a symbol, if it has one. -/
def parent? (t : SymbolTable) (s : Symbol) : Option Symbol := (t.parentOf s).toOption.join

theorem parentOf_eq_ok {q : Option Symbol} :
    t.parentOf s = .ok q ↔ ∃ d, t.slot s = .ok (.meaning d) ∧ d.inherits.map some = q := by
  simp only [parentOf, bind_eq_ok, meaning_eq_ok, pure, Except.pure, Except.ok.injEq]
  refine exists_congr fun d => and_congr_right fun _ => ?_
  cases d.inherits <;> simp

theorem parent?_eq_some_iff : t.parent? s = some p ↔ t.HasParent s p := by
  rw [parent?, HasParent]
  cases t.parentOf s with
  | error e => simp [Except.toOption]
  | ok q => simp [Except.toOption]

theorem IsRoot.parent?_eq_none (h : t.IsRoot s) : t.parent? s = none := by
  rw [IsRoot] at h
  rw [parent?, h]
  rfl

theorem IsMeaningOf.parentOf_eq (h : t.IsMeaningOf k s) : t.parentOf s = .ok (t.parent? s) := by
  obtain ⟨-, d, -, -, hd⟩ := h
  have hparent := parentOf_eq_ok.2 ⟨d, meaning_eq_ok.1 hd, rfl⟩
  rw [parent?, hparent]
  rfl

theorem isRoot_iff (h : t.IsMeaningOf k s) : t.IsRoot s ↔ t.parent? s = none := by
  rw [IsRoot, h.parentOf_eq, Except.ok.injEq]

/-- The symbols of an arena that can be read differ by their index, which is below the size of the arena. -/
theorem length_le_size (hnodup : l.Nodup) (hl : ∀ s ∈ l, t.IsMeaningOf k s) : l.length ≤ t.size k := by
  have hread : ∀ s ∈ l, ∃ h a, s = some h ∧ t.arenas[k]? = some a ∧ h.arena = k ∧ h.generation = a.generation ∧
      h.index.toNat < a.slots.length := by
    intro s hs
    obtain ⟨h, d, rfl, rfl, hd⟩ := hl s hs
    obtain ⟨h', a, hh, ha, -, hgeneration, hx⟩ := slot_eq_ok.1 (meaning_eq_ok.1 hd)
    obtain rfl := Option.some.inj hh
    exact ⟨h, a, rfl, ha, rfl, hgeneration, (List.getElem?_eq_some_iff.1 hx).1⟩
  have hindices : (l.map fun s => (s.map (·.index.toNat)).getD 0).Nodup := by
    refine hnodup.map_on fun s hs s' hs' hindex => ?_
    obtain ⟨h, a, rfl, ha, harena, hgeneration, -⟩ := hread s hs
    obtain ⟨h', a', rfl, ha', harena', hgeneration', -⟩ := hread s' hs'
    obtain rfl := Option.some.inj (ha.symm.trans ha')
    have hsame : h.index = h'.index := UInt32.toNat_inj.1 hindex
    cases h
    cases h'
    simp_all
  have hsub : (l.map fun s => (s.map (·.index.toNat)).getD 0) ⊆ List.range (t.size k) := by
    intro i hi
    obtain ⟨s, hs, rfl⟩ := List.mem_map.1 hi
    obtain ⟨h, a, rfl, ha, -, -, hlt⟩ := hread s hs
    simpa [size, ha, Arena.size] using hlt
  simpa using hindices.length_le_of_subset hsub

namespace ParentClosed

variable (h : t.ParentClosed k) (hm : t.IsMeaningOf k m)

include h hm

theorem isMeaningOf_of_mem (hl : Lineage t.parent? m l) (ha : a ∈ l) : t.IsMeaningOf k a := by
  induction hl with
  | root _ => exact List.mem_singleton.1 ha ▸ hm
  | @child m p l hp _ ih =>
    rcases List.mem_append.1 ha with ha | ha
    · exact ih (h m p hm (parent?_eq_some_iff.1 hp)) ha
    · exact List.mem_singleton.1 ha ▸ hm

theorem reachesRoot_iff : t.ReachesRoot m ↔ ∃ l, Lineage t.parent? m l := by
  constructor
  · rintro ⟨r, hway, hroot⟩
    clear hm
    induction hway using Relation.ReflTransGen.head_induction_on with
    | refl => exact ⟨_, .root hroot.parent?_eq_none⟩
    | head hp _ ih =>
      obtain ⟨l, hl⟩ := ih
      exact ⟨_, .child (parent?_eq_some_iff.2 hp) hl⟩
  · rintro ⟨l, hl⟩
    induction hl with
    | root hroot => exact ⟨_, .refl, (isRoot_iff hm).2 hroot⟩
    | @child m p l hp _ ih =>
      have hparent := parent?_eq_some_iff.1 hp
      obtain ⟨r, hway, hroot⟩ := ih (h m p hm hparent)
      exact ⟨r, .head hparent hway, hroot⟩

theorem lineage_iff : Lineage t.parent? m l ↔ t.Ascends m l := by
  constructor
  · intro hl
    obtain ⟨⟨r, hr, hroot⟩, hlast, hlinked⟩ := Lineage.iff_isChain.1 hl
    have hmeaning := h.isMeaningOf_of_mem hm hl (List.mem_of_mem_head? hr)
    exact ⟨hl.nodup, ⟨r, hr, (isRoot_iff hmeaning).2 hroot⟩, hlast, hlinked.imp fun _ _ => parent?_eq_some_iff.1⟩
  · rintro ⟨-, ⟨r, hr, hroot⟩, hlast, hlinked⟩
    exact Lineage.iff_isChain.2
      ⟨⟨r, hr, hroot.parent?_eq_none⟩, hlast, hlinked.imp fun _ _ => parent?_eq_some_iff.2⟩

theorem ascending_of_lineage (hl : Lineage t.parent? m l) : t.ascending m = .ok l := by
  have hmem : ∀ a ∈ l, t.IsMeaningOf k a := fun a => h.isMeaningOf_of_mem hm hl
  have hlength := length_le_size hl.nodup hmem
  obtain ⟨handle, d, rfl, rfl, hd⟩ := hm
  exact bind_eq_ok.2 ⟨d, hd, ancestry_eq_ok hl (fun a ha => (hmem a ha).parentOf_eq) (Nat.le_succ_of_le hlength)⟩

theorem ascending_of_endless (hnone : ∀ l, ¬ Lineage t.parent? m l) {d : MeaningSlot} (hd : t.meaning m = .ok d) :
    t.ascending m = .error (.endlessAncestry d.name) := by
  rw [ascending, hd]
  exact ancestry_eq_error (fun _ ha => ha.parentOf_eq) (fun a p ha hp => h a p ha (parent?_eq_some_iff.1 hp)) _ hm hnone

/-- An ancestry is the list of what is passed from a meaning to the root. -/
theorem ascending_eq_ok_iff : t.ascending m = .ok l ↔ Lineage t.parent? m l := by
  refine ⟨fun hok => ?_, h.ascending_of_lineage hm⟩
  by_cases hex : ∃ l, Lineage t.parent? m l
  · obtain ⟨l', hl'⟩ := hex
    obtain rfl := Except.ok.inj ((h.ascending_of_lineage hm hl').symm.trans hok)
    exact hl'
  · obtain ⟨-, d, -, -, hd⟩ := id hm
    cases (h.ascending_of_endless hm (not_exists.1 hex) hd).symm.trans hok

/-- An ancestry is endless exactly if no root is reached. -/
theorem ascending_eq_endless_iff {d : MeaningSlot} (hd : t.meaning m = .ok d) :
    t.ascending m = .error (.endlessAncestry d.name) ↔ ¬ t.ReachesRoot m := by
  rw [h.reachesRoot_iff hm]
  constructor
  · rintro hendless ⟨l, hl⟩
    cases (h.ascending_of_lineage hm hl).symm.trans hendless
  · exact fun hnone => h.ascending_of_endless hm (not_exists.1 hnone) hd

/-- What is above a meaning is on its ancestry, and the part up to there is its own ancestry. -/
theorem ascending_of_leadsTo (hl : Lineage t.parent? m l) (hway : t.LeadsTo m a) :
    ∃ u v, l = u ++ a :: v ∧ t.ascending a = .ok (u ++ [a]) := by
  have hmem : a ∈ l := by
    induction hway with
    | refl => exact hl.self_mem
    | tail _ hp ih => exact hl.parent_mem ih (parent?_eq_some_iff.2 hp)
  have ha := h.isMeaningOf_of_mem hm hl hmem
  obtain ⟨u, v, rfl⟩ := List.append_of_mem hmem
  exact ⟨u, v, rfl, h.ascending_of_lineage ha hl.of_append_cons⟩

end ParentClosed

/-! ### Members -/

/-- What `find` gives for a meaning. -/
def member? (t : SymbolTable) (find : MeaningSlot → Option α) (s : Symbol) : Option α :=
    (t.meaning s).toOption.bind find

/-- The last of a list of meanings for which `find` gives something, and what it gives. -/
def LastWith (t : SymbolTable) (find : MeaningSlot → Option α) (l : List Symbol) (s : Symbol) (x : α) : Prop :=
  ∃ u v, l = u ++ s :: v ∧ t.member? find s = some x ∧ ∀ b ∈ v, t.member? find b = none

def lastMember? (t : SymbolTable) (find : MeaningSlot → Option α) (l : List Symbol) : Option (Symbol × α) :=
  l.reverse.findSome? fun s => (t.member? find s).map (s, ·)

variable {find : MeaningSlot → Option α}

theorem lastMember?_eq_some_iff {x : α} : t.lastMember? find l = some (s, x) ↔ t.LastWith find l s x := by
  rw [lastMember?, List.findSome?_eq_some_iff, LastWith]
  constructor
  · rintro ⟨v, b, u, hl, hb, hv⟩
    obtain ⟨y, hy, hbs⟩ := Option.map_eq_some_iff.1 hb
    obtain ⟨rfl, rfl⟩ := Prod.mk.inj hbs
    refine ⟨u.reverse, v.reverse, ?_, hy, fun c hc => by simpa using hv c (List.mem_reverse.1 hc)⟩
    simpa using congrArg List.reverse hl
  · rintro ⟨u, v, rfl, hs, hv⟩
    exact ⟨v.reverse, s, u.reverse, by simp, by simp [hs], fun c hc => by simp [hv c (List.mem_reverse.1 hc)]⟩

theorem lastMember?_eq_none_iff : t.lastMember? find l = none ↔ ∀ s ∈ l, t.member? find s = none := by
  simp [lastMember?, List.findSome?_eq_none_iff]

theorem nearest_eq (hl : ∀ s ∈ l, ∃ d, t.meaning s = .ok d) :
    t.nearest find l = .ok (l.findSome? fun s => (t.member? find s).map (s, ·)) := by
  induction l with
  | nil => rfl
  | cons s l ih =>
    obtain ⟨d, hd⟩ := hl s (by simp)
    have hmember : t.member? find s = find d := by
      rw [member?, hd]
      rfl
    rw [nearest, hd, List.findSome?_cons, hmember]
    simp only [bind, Except.bind]
    cases find d with
    | none => exact ih fun b hb => hl b (by simp [hb])
    | some x => rfl

/-- Members are looked up from the end of a list of meanings: a method is that of the last meaning which has one of the
name, and so is a field, which comes with its meaning. -/
structure LooksUp (t : SymbolTable) (m : Symbol) (l : List Symbol) : Prop where
  method : ∀ n x, t.lookupMethod m n = .ok (some x) ↔ ∃ s, t.LastWith (·.methods.get? n) l s x
  noMethod : ∀ n, t.lookupMethod m n = .ok none ↔ ∀ s ∈ l, t.member? (·.methods.get? n) s = none
  field : ∀ n x s, t.lookupField m n = .ok (some (x, s)) ↔ t.LastWith (·.fields.get? n) l s x
  noField : ∀ n, t.lookupField m n = .ok none ↔ ∀ s ∈ l, t.member? (·.fields.get? n) s = none

theorem looksUp (hl : ∀ s ∈ l, ∃ d, t.meaning s = .ok d) (hm : t.ascending m = .ok l) : t.LooksUp m l := by
  have hnearest : ∀ {find : MeaningSlot → Option Symbol}, t.nearest find l.reverse = .ok (t.lastMember? find l) :=
    nearest_eq fun s hs => hl s (List.mem_reverse.1 hs)
  have hmethod : ∀ n, t.lookupMethod m n = .ok ((t.lastMember? (·.methods.get? n) l).map Prod.snd) := fun n => by
    rw [lookupMethod, hm]
    exact congrArg (Except.map _) hnearest
  have hfield : ∀ n, t.lookupField m n = .ok ((t.lastMember? (·.fields.get? n) l).map Prod.swap) := fun n => by
    rw [lookupField, hm]
    exact congrArg (Except.map _) hnearest
  refine ⟨fun n x => ?_, fun n => ?_, fun n x s => ?_, fun n => ?_⟩
  · rw [hmethod, Except.ok.injEq, Option.map_eq_some_iff, Prod.exists]
    simp [lastMember?_eq_some_iff]
  · rw [hmethod, Except.ok.injEq, Option.map_eq_none_iff, lastMember?_eq_none_iff]
  · rw [hfield, Except.ok.injEq, Option.map_eq_some_iff, Prod.exists]
    simp [lastMember?_eq_some_iff]
  · rw [hfield, Except.ok.injEq, Option.map_eq_none_iff, lastMember?_eq_none_iff]

/-- The ancestry of a meaning. -/
structure AscendsToRoot (t : SymbolTable) (m : Symbol) (name : Text) : Prop where
  endless_iff : t.ascending m = .error (.endlessAncestry name) ↔ ¬ t.ReachesRoot m
  exists_iff : (∃ l, t.ascending m = .ok l) ↔ t.ReachesRoot m
  eq_ok_iff : ∀ l, t.ascending m = .ok l ↔ t.Ascends m l
  above : ∀ l, t.ascending m = .ok l → ∀ a, t.LeadsTo m a → ∃ u v, l = u ++ a :: v ∧ t.ascending a = .ok (u ++ [a])
  lookups : ∀ l, t.ascending m = .ok l → t.LooksUp m l

theorem ParentClosed.ascendsToRoot (h : t.ParentClosed k) (hm : t.IsMeaningOf k m) {d : MeaningSlot}
    (hd : t.meaning m = .ok d) : t.AscendsToRoot m d.name where
  endless_iff := h.ascending_eq_endless_iff hm hd
  exists_iff := by
    rw [h.reachesRoot_iff hm]
    exact exists_congr fun l => h.ascending_eq_ok_iff hm
  eq_ok_iff := fun l => (h.ascending_eq_ok_iff hm).trans (h.lineage_iff hm)
  above := fun l hl a => h.ascending_of_leadsTo hm ((h.ascending_eq_ok_iff hm).1 hl)
  lookups := fun l hl => by
    refine looksUp (fun s hs => ?_) hl
    obtain ⟨-, e, -, -, he⟩ := h.isMeaningOf_of_mem hm ((h.ascending_eq_ok_iff hm).1 hl) hs
    exact ⟨e, he⟩

/-! ### Runs -/

theorem parentClosed_iff : t.ParentClosed k ↔ ∀ (s p : Handle) (d : MeaningSlot), t.slot (some s) = .ok (.meaning d) →
    s.arena = k → d.inherits = some p → p.arena = k ∧ ∃ e, t.slot (some p) = .ok (.meaning e) := by
  simp only [ParentClosed, IsMeaningOf, HasParent, parentOf_eq_ok, meaning_eq_ok]
  constructor
  · intro h s p d hd hk hp
    obtain ⟨p', e, hsame, hk', he⟩ := h (some s) (some p) ⟨s, d, rfl, hk, hd⟩ ⟨d, hd, by rw [hp]; rfl⟩
    obtain rfl := Option.some.inj hsame
    exact ⟨hk', e, he⟩
  · rintro h _ p ⟨s, -, rfl, hk, -⟩ ⟨d, hd, hp⟩
    obtain ⟨p', hp', rfl⟩ := Option.map_eq_some_iff.1 hp
    obtain ⟨hk', e, he⟩ := h s p' d hd hk hp'
    exact ⟨p', e, rfl, hk', he⟩

end SymbolTable

/-- A change keeps the kind, and the parent of a meaning unless it sets the parent. -/
theorem Slot.change?_cases {x y : Slot} {c : SlotChange} (h : x.change? c = some y) :
    (∃ d e, x = .meaning d ∧ y = .meaning e ∧ (c = .parent e.inherits ∨ e.inherits = d.inherits)) ∨
      ∃ d e, x = .method d ∧ y = .method e := by
  unfold change? at h
  split at h
  all_goals cases h
  · exact .inl ⟨_, _, rfl, rfl, .inl rfl⟩
  · exact .inl ⟨_, _, rfl, rfl, .inr rfl⟩
  · exact .inl ⟨_, _, rfl, rfl, .inr rfl⟩
  · exact .inl ⟨_, _, rfl, rfl, .inr rfl⟩
  · exact .inr ⟨_, _, rfl, rfl⟩

namespace Ledger

open SymbolTable

variable {w : Ledger} {k : Nat}

/-- Parents that are set for symbols of an arena are symbols of the arena. -/
def ParentsWithin (k : Nat) (ops : List TableOp) : Prop :=
  ∀ s p : Handle, .change (some s) (.parent (some p)) ∈ ops → s.arena = k → p.arena = k

theorem parentClosed_step (h : w.table.ParentClosed k) {op : TableOp} (hop : ParentsWithin k [op]) :
    (w.step op).table.ParentClosed k := by
  rw [parentClosed_iff] at h ⊢
  have hmoves := w.moves_step op
  generalize w.step op = w' at hmoves
  intro s p d hd hk hp
  cases hmoves with
  | same => exact h s p d hd hk hp
  | opened =>
    obtain ⟨hk', e, he⟩ := h s p d (slot_openArena.1 hd) hk hp
    exact ⟨hk', e, slot_openArena.2 he⟩
  | created new _ =>
    rcases slot_of_slot_allocate hd with ⟨-, hnew⟩ | hd
    · -- a new meaning has no parent
      cases new <;> cases hnew
      cases hp
    · obtain ⟨hk', e, he⟩ := h s p d hd hk hp
      exact ⟨hk', e, slot_allocate_of_slot _ _ he⟩
  | released _ =>
    obtain ⟨hd, hother⟩ := slot_release.1 hd
    obtain ⟨hk', e, he⟩ := h s p d hd hk hp
    refine ⟨hk', e, slot_release.2 ⟨he, fun p' hp' => ?_⟩⟩
    rw [← Option.some.inj hp', hk', ← hk]
    exact hother s rfl
  | @changed s' c x y hs hc hparent =>
    -- what is changed stays a meaning if it was one
    have hkept : ∀ {a e}, w.table.slot a = .ok (.meaning e) → ∃ e', (w.table.put s' y).slot a = .ok (.meaning e') := by
      intro a e ha
      rw [slot_put hs]
      split
      · rename_i hsame
        obtain rfl := Except.ok.inj ((hsame ▸ hs).symm.trans ha)
        rcases Slot.change?_cases hc with ⟨_, e', _, rfl, _⟩ | ⟨_, _, hmethod, _⟩
        · exact ⟨e', rfl⟩
        · cases hmethod
      · exact ⟨e, ha⟩
    have hold : ∀ {d₀}, w.table.slot (some s) = .ok (.meaning d₀) → d₀.inherits = some p →
        p.arena = k ∧ ∃ e, (w.table.put s' y).slot (some p) = .ok (.meaning e) := by
      intro d₀ hd₀ hp₀
      obtain ⟨hk', e, he⟩ := h s p d₀ hd₀ hk hp₀
      exact ⟨hk', hkept he⟩
    rw [slot_put hs] at hd
    split at hd
    · rename_i hsame
      subst hsame
      obtain rfl := Except.ok.inj hd
      rcases Slot.change?_cases hc with ⟨d₀, e, rfl, he, rfl | hinherits⟩ | ⟨_, _, _, hmethod⟩
      · obtain rfl := Slot.meaning.inj he
        obtain ⟨e, he⟩ := (hparent _ rfl).resolve_left (by simp [hp])
        rw [hp] at he hop
        exact ⟨hop s p (by simp) hk, hkept he⟩
      · obtain rfl := Slot.meaning.inj he
        exact hold hs (hinherits.symm.trans hp)
      · cases hmethod
    · exact hold hd hp

/-- Parents stay in an arena in every run that sets no others. -/
theorem parentClosed_run {ops : List TableOp} (h : ParentsWithin k ops) : (run ops).table.ParentClosed k := by
  induction ops using List.reverseRecOn with
  | nil =>
    rintro s p ⟨handle, d, rfl, -, hd⟩ -
    cases hd
  | append_singleton ops op ih =>
    rw [run_concat]
    have hbefore : ParentsWithin k ops := fun s p hmem => h s p (List.mem_append_left _ hmem)
    exact parentClosed_step (ih hbefore) fun s p hmem => h s p (List.mem_append_right _ hmem)

/-- In a run in which the parents of an arena's meanings are symbols of the arena, the ancestry of a meaning is endless
exactly if its parents lead to no root, and otherwise it goes from the root to the meaning; what is above the meaning
has the part up to there, and members are looked up from its end. -/
theorem run_ascendsToRoot {ops : List TableOp} {m : Handle} (hops : ParentsWithin m.arena ops) {d : MeaningSlot}
    (hm : (run ops).table.meaning (some m) = .ok d) : (run ops).table.AscendsToRoot (some m) d.name :=
  (parentClosed_run hops).ascendsToRoot ⟨m, d, rfl, rfl, hm⟩ hm

/-- The symbol at an index of an arena that was not released. -/
def symbolIn (k : Nat) (i : UInt32) : Symbol := some ⟨k, i, 1⟩

/-- An arena with nothing but a chain of three meanings, two of which have a method of the same name, and an arena with
two meanings that are each other's parents. -/
def tangle : List TableOp :=
  [.openArena, .create 0 (.meaning "A"), .create 0 (.meaning "B"), .create 0 (.meaning "C"),
    .change (symbolIn 0 2) (.parent (symbolIn 0 1)), .change (symbolIn 0 1) (.parent (symbolIn 0 0)),
    .openArena, .create 1 (.meaning "D"), .create 1 (.meaning "E"),
    .change (symbolIn 1 0) (.parent (symbolIn 1 1)), .change (symbolIn 1 1) (.parent (symbolIn 1 0)),
    .create 1 (.method "draw" (symbolIn 0 0) []), .create 1 (.method "draw" (symbolIn 0 1) []),
    .change (symbolIn 0 0) (.method "draw" (symbolIn 1 2)), .change (symbolIn 0 1) (.method "draw" (symbolIn 1 3))]

set_option maxRecDepth 1500 in
/-- The chain is as long as there are symbols in its arena and still has an ancestry; the circle has none. -/
theorem run_ascendsToRoot_tangle : (∀ k, ParentsWithin k tangle) ∧
    (run tangle).table.ascending (symbolIn 0 2) = .ok ([0, 1, 2].map (symbolIn 0)) ∧
    (run tangle).table.lookupMethod (symbolIn 0 2) "draw" = .ok (some (symbolIn 1 3)) ∧
    (run tangle).table.ascending (symbolIn 1 0) = .error (.endlessAncestry "D") ∧
    ¬ (run tangle).table.ReachesRoot (symbolIn 1 0) := by
  have hwithin : ∀ k, ParentsWithin k tangle := by
    intro k s p hmem hk
    simp [tangle, symbolIn] at hmem
    rcases hmem with ⟨rfl, rfl⟩ | ⟨rfl, rfl⟩ | ⟨rfl, rfl⟩ | ⟨rfl, rfl⟩ <;> exact hk
  have hchain := run_ascendsToRoot (m := ⟨0, 2, 1⟩) (hwithin 0) rfl
  have hcircle := run_ascendsToRoot (m := ⟨1, 0, 1⟩) (hwithin 1) rfl
  have hup : (run tangle).table.ascending (symbolIn 0 2) = .ok ([0, 1, 2].map (symbolIn 0)) :=
    (hchain.eq_ok_iff _).2 ⟨by decide, ⟨_, rfl, rfl⟩, rfl, .cons_cons rfl (.cons_cons rfl (.singleton _))⟩
  have hendless : (run tangle).table.ascending (symbolIn 1 0) = .error (.endlessAncestry "D") := rfl
  refine ⟨hwithin, hup, ?_, hendless, hcircle.endless_iff.1 hendless⟩
  exact ((hchain.lookups _ hup).method "draw" _).2 ⟨symbolIn 0 1, [symbolIn 0 0], [symbolIn 0 2], rfl, rfl, by decide⟩

end Ledger

end MeaningForest

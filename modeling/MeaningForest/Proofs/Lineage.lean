import MeaningForest.Symbol.Ancestry
import Mathlib.Data.List.Chain
import Mathlib.Data.List.Nodup
import Mathlib.Data.List.Infix
import Mathlib.Data.Nat.Find

/-!
# Lineages

The lineage of an element under a parent map is the list from a parentless element down to it.  Here are the facts
that do not depend on where the parents come from:

* an element has at most one lineage, and a lineage has no repetitions (`Lineage.unique`, `Lineage.nodup`);
* the lineage of a member of a lineage is the part up to that member (`Lineage.prefix_of_mem`);
* `ancestry` computes the lineage whenever there is room for it (`ancestry_eq_ok`), and finds nothing else
  (`lineage_of_ancestry`, `ancestry_eq_error`);
* in a finite set that is closed under parents and has no cycle every element has a lineage (`exists_lineage`).
-/

namespace MeaningForest

variable {α : Type} {parent : α → Option α}

theorem notMem_of_nodup {a : α} {u v : List α} (h : (u ++ a :: v).Nodup) : a ∉ u := by
  rw [List.nodup_append] at h
  exact fun hmem => h.2.2 a hmem a (by simp) rfl

/-- `Lineage parent m l`: following parents from `m` ends at a parentless element, and `l` lists what is passed,
the parentless element first and `m` last. -/
inductive Lineage (parent : α → Option α) : α → List α → Prop
  | root {m : α} (h : parent m = none) : Lineage parent m [m]
  | child {m p : α} {l : List α} (h : parent m = some p) (hl : Lineage parent p l) : Lineage parent m (l ++ [m])

namespace Lineage

theorem unique {m : α} {l l' : List α} (h : Lineage parent m l) (h' : Lineage parent m l') : l = l' := by
  induction h generalizing l' with
  | root hm =>
    cases h' with
    | root _ => rfl
    | child hp _ => rw [hm] at hp; cases hp
  | child hm _ ih =>
    cases h' with
    | root hn => rw [hm] at hn; cases hn
    | child hp hl =>
      rw [hm] at hp
      cases hp
      rw [ih hl]

/-- A lineage ends with its element. -/
theorem exists_eq_append {m : α} {l : List α} (h : Lineage parent m l) : ∃ r, l = r ++ [m] := by
  cases h with
  | root _ => exact ⟨[], rfl⟩
  | child _ _ => exact ⟨_, rfl⟩

theorem self_mem {m : α} {l : List α} (h : Lineage parent m l) : m ∈ l := by
  obtain ⟨r, rfl⟩ := h.exists_eq_append
  simp

theorem dropLast_append {m : α} {l : List α} (h : Lineage parent m l) : l.dropLast ++ [m] = l := by
  obtain ⟨r, rfl⟩ := h.exists_eq_append
  simp

theorem getLast?_eq {m : α} {l : List α} (h : Lineage parent m l) : l.getLast? = some m := by
  obtain ⟨r, rfl⟩ := h.exists_eq_append
  simp

/-- An element of a lineage determines the part of the lineage before it. -/
theorem of_append_cons {m a : α} {u v : List α} (h : Lineage parent m (u ++ a :: v)) :
    Lineage parent a (u ++ [a]) := by
  generalize hl : u ++ a :: v = l at h
  induction h generalizing v with
  | @root m hm =>
    obtain ⟨rfl, rfl, rfl⟩ : u = [] ∧ a = m ∧ v = [] := by
      cases u with
      | nil => simpa using hl
      | cons b u => simp at hl
    exact .root hm
  | @child m p l hm hl' ih =>
    rcases List.eq_nil_or_concat v with rfl | ⟨v', b, rfl⟩
    · obtain ⟨rfl, hlast⟩ := List.append_inj' hl rfl
      obtain rfl := List.singleton_inj.1 hlast
      exact .child hm hl'
    · have hcut : (u ++ a :: v') ++ [b] = l ++ [m] := by simpa using hl
      exact ih (List.append_inj' hcut rfl).1

/-- A lineage begins with a parentless element. -/
theorem parent_head {m r : α} {l : List α} (h : Lineage parent m (r :: l)) : parent r = none := by
  have hr : Lineage parent r [r] := of_append_cons (u := []) h
  generalize hs : [r] = s at hr
  cases hr with
  | root hm => exact hm
  | child _ hl =>
    obtain ⟨t, rfl⟩ := hl.exists_eq_append
    exact absurd (congrArg List.length hs) (by simp)

/-- The members of a lineage have lineages of their own, which begin the longer one. -/
theorem prefix_of_mem {m a : α} {l : List α} (h : Lineage parent m l) (ha : a ∈ l) :
    ∃ r, Lineage parent a r ∧ r <+: l := by
  obtain ⟨u, v, rfl⟩ := List.append_of_mem ha
  exact ⟨u ++ [a], h.of_append_cons, v, by simp⟩

theorem parent_mem {m a p : α} {l : List α} (h : Lineage parent m l) (ha : a ∈ l) (hp : parent a = some p) : p ∈ l := by
  obtain ⟨r, hr, hprefix⟩ := h.prefix_of_mem ha
  cases hr with
  | root hnone => rw [hp] at hnone; cases hnone
  | child hq hl =>
    obtain rfl := Option.some.inj (hp.symm.trans hq)
    exact hprefix.subset (List.mem_append_left _ hl.self_mem)

theorem nodup {m : α} {l : List α} (h : Lineage parent m l) : l.Nodup := by
  rw [List.nodup_iff_sublist]
  intro a hsub
  -- both occurrences of `a` would be the end of its one lineage
  obtain ⟨u, v, rfl, ha, hv⟩ := List.cons_sublist_iff.1 hsub
  have hv' : a ∈ v := by simpa using hv
  obtain ⟨u₁, u₂, rfl⟩ := List.append_of_mem ha
  obtain ⟨v₁, v₂, rfl⟩ := List.append_of_mem hv'
  have h₁ : Lineage parent a (u₁ ++ [a]) := of_append_cons (v := u₂ ++ (v₁ ++ a :: v₂)) (by simpa using h)
  have h₂ : Lineage parent a ((u₁ ++ a :: u₂ ++ v₁) ++ [a]) := of_append_cons (v := v₂) (by simpa using h)
  have hlen := congrArg List.length (h₁.unique h₂)
  simp at hlen

/-- A child of an element of a lineage is the next element, if it is on the lineage at all. -/
theorem next_of_mem {m a b : α} {u v : List α} (h : Lineage parent m (u ++ a :: v)) (hb : parent b = some a)
    (hmem : b ∈ u ++ a :: v) : ∃ w, v = b :: w := by
  obtain ⟨r, hr, hp⟩ := h.prefix_of_mem hmem
  have hchild : Lineage parent b (u ++ [a] ++ [b]) := .child hb h.of_append_cons
  obtain rfl := hr.unique hchild
  obtain ⟨w, hw⟩ := hp
  have hv : a :: (b :: w) = a :: v := by
    rw [← List.append_right_inj u]
    simpa using hw
  exact ⟨w, (List.cons.inj hv).2.symm⟩

/-- On a lineage each element is the parent of the next. -/
theorem isChain {m : α} {l : List α} (h : Lineage parent m l) : l.IsChain fun a b => parent b = some a := by
  induction h with
  | root _ => exact List.isChain_singleton _
  | child hm hl ih =>
    obtain ⟨r, rfl⟩ := hl.exists_eq_append
    refine List.isChain_append.2 ⟨ih, List.isChain_singleton _, ?_⟩
    simpa using hm

/-- A lineage is a list from a parentless element down to its own, in which each element is the parent of the next. -/
theorem iff_isChain {m : α} {l : List α} : Lineage parent m l ↔
    (∃ r, l.head? = some r ∧ parent r = none) ∧ l.getLast? = some m ∧ l.IsChain fun a b => parent b = some a := by
  constructor
  · intro h
    refine ⟨?_, h.getLast?_eq, h.isChain⟩
    cases l with
    | nil => exact nomatch h.self_mem
    | cons r l => exact ⟨r, rfl, h.parent_head⟩
  · rintro ⟨⟨r, hr, hroot⟩, hlast, hchain⟩
    induction l using List.reverseRecOn generalizing m with
    | nil => cases hr
    | append_singleton l a ih =>
      obtain rfl : a = m := by simpa using hlast
      rcases List.eq_nil_or_concat l with rfl | ⟨u, p, rfl⟩
      · obtain rfl : a = r := by simpa using hr
        exact .root hroot
      · obtain ⟨hup, -, hlink⟩ := List.isChain_append.1 hchain
        have hp : parent a = some p := by simpa using hlink
        exact .child hp (ih (by simpa using hr) (by simp) hup)

/-- A lineage can be followed in another forest that has the same parents. -/
theorem map {β : Type} {parent' : β → Option β} {f : α → β} {m : α} {l : List α} (h : Lineage parent m l)
    (hf : ∀ a ∈ l, parent' (f a) = (parent a).map f) : Lineage parent' (f m) (l.map f) := by
  induction h with
  | @root m hm => exact .root (by rw [hf m (by simp), hm]; rfl)
  | @child m p l hm hl ih =>
    rw [List.map_append]
    refine .child ?_ (ih fun a ha => hf a (by simp [ha]))
    rw [hf m (by simp), hm]
    rfl

end Lineage

/-! ### Ancestries -/

/-- What `ancestry` finds is a lineage. -/
theorem lineage_of_ancestry {endless : Fault} {room : Nat} {m : α} {l : List α}
    (h : ancestry (fun a => .ok (parent a)) endless room (some m) = .ok l) : Lineage parent m l := by
  induction room generalizing m l with
  | zero => simp [ancestry] at h
  | succ room ih =>
    rw [ancestry] at h
    cases hp : parent m with
    | none =>
      simp [hp, ancestry, bind, Except.bind, pure, Except.pure] at h
      subst h
      exact .root hp
    | some p =>
      simp only [hp, bind, Except.bind] at h
      split at h
      · cases h
      · rename_i above habove
        simp only [pure, Except.pure, Except.ok.injEq] at h
        subst h
        exact .child hp (ih habove)

/-- `ancestry` finds the lineage if it has room for it. -/
theorem ancestry_eq_ok {step : α → Except Fault (Option α)} {endless : Fault} {room : Nat} {m : α} {l : List α}
    (h : Lineage parent m l) (hstep : ∀ a ∈ l, step a = .ok (parent a)) (hroom : l.length ≤ room) :
    ancestry step endless room (some m) = .ok l := by
  induction h generalizing room with
  | @root m hm =>
    obtain ⟨room, rfl⟩ : ∃ k, room = k + 1 := ⟨room - 1, by simp at hroom; omega⟩
    rw [ancestry, hstep m (by simp), hm]
    simp [ancestry, bind, Except.bind, pure, Except.pure]
  | @child m p l hm hl ih =>
    obtain ⟨room, rfl⟩ : ∃ k, room = k + 1 := ⟨room - 1, by simp at hroom; omega⟩
    have hup : ancestry step endless room (some p) = .ok l :=
      ih (fun a ha => hstep a (by simp [ha])) (by simp at hroom; omega)
    rw [ancestry, hstep m (by simp), hm]
    simp [hup, bind, Except.bind, pure, Except.pure]

/-- Where no parentless element is reached, `ancestry` finds no end. -/
theorem ancestry_eq_error {step : α → Except Fault (Option α)} {endless : Fault} {P : α → Prop}
    (hstep : ∀ a, P a → step a = .ok (parent a)) (hclosed : ∀ a p, P a → parent a = some p → P p) (room : Nat) {m : α}
    (hm : P m) (hnone : ∀ l, ¬ Lineage parent m l) : ancestry step endless room (some m) = .error endless := by
  induction room generalizing m with
  | zero => rfl
  | succ room ih =>
    cases hp : parent m with
    | none => exact absurd (.root hp) (hnone _)
    | some p =>
      have hup := ih (hclosed m p hm hp) fun l hl => hnone _ (.child hp hl)
      rw [ancestry, hstep m hm, hp]
      simp [hup, bind, Except.bind]

/-! ### Existence -/

/-- The element that `k` steps towards the root lead to. -/
def ascent (parent : α → Option α) : Nat → α → Option α
  | 0, a => some a
  | k + 1, a => (parent a).bind (ascent parent k)

/-- An element is on a cycle if following parents leads back to it. -/
def OnCycle (parent : α → Option α) (a : α) : Prop := ∃ k, 0 < k ∧ ascent parent k a = some a

theorem ascent_add (j k : Nat) (a : α) : ascent parent (j + k) a = (ascent parent j a).bind (ascent parent k) := by
  induction j generalizing a with
  | zero => simp [ascent]
  | succ j ih =>
    rw [Nat.add_right_comm, ascent, ascent]
    cases parent a with
    | none => rfl
    | some p => exact ih p

/-- Fewer parents lead to nothing new. -/
theorem ascent_mono {parent' : α → Option α} (h : ∀ a p, parent' a = some p → parent a = some p) {k : Nat} {a b : α}
    (hab : ascent parent' k a = some b) : ascent parent k a = some b := by
  induction k generalizing a with
  | zero => exact hab
  | succ k ih =>
    rw [ascent, Option.bind_eq_some_iff] at hab ⊢
    obtain ⟨p, hp, hk⟩ := hab
    exact ⟨p, h a p hp, ih hk⟩

theorem OnCycle.mono {parent' : α → Option α} (h : ∀ a p, parent' a = some p → parent a = some p) {a : α}
    (ha : OnCycle parent' a) : OnCycle parent a := by
  obtain ⟨k, hk, hback⟩ := ha
  exact ⟨k, hk, ascent_mono h hback⟩

/-- As long as it does not repeat itself, an ascent in a list is no longer than the list. -/
theorem ascent_bound {s : List α} {a : α} {n : Nat} (hmem : ∀ i < n, ∃ b ∈ s, ascent parent i a = some b)
    (hne : ∀ i j, i < j → j < n → ascent parent i a ≠ ascent parent j a) : n ≤ s.length := by
  have hnodup : ((List.range n).map fun i => ascent parent i a).Nodup := by
    rw [List.nodup_iff_pairwise_ne, List.pairwise_map]
    apply List.Pairwise.imp_of_mem _ List.pairwise_lt_range
    intro i j _ hj hij
    exact hne i j hij (List.mem_range.1 hj)
  have hsub : ((List.range n).map fun i => ascent parent i a) ⊆ s.map some := by
    intro x hx
    obtain ⟨i, hi, rfl⟩ := List.mem_map.1 hx
    obtain ⟨b, hb, hib⟩ := hmem i (List.mem_range.1 hi)
    rw [hib]
    exact List.mem_map_of_mem hb
  have hlen := List.Nodup.length_le_of_subset hnodup hsub
  simpa using hlen

theorem lineage_of_ascent_eq_none {k : Nat} {m : α} (h : ascent parent k m = none) : ∃ l, Lineage parent m l := by
  induction k generalizing m with
  | zero => cases h
  | succ k ih =>
    cases hp : parent m with
    | none => exact ⟨_, .root hp⟩
    | some p =>
      rw [ascent, hp] at h
      obtain ⟨l, hl⟩ := ih h
      exact ⟨_, .child hp hl⟩

/-- In a list that contains the parents of its members, an element without a cycle above it has a lineage. -/
theorem exists_lineage {s : List α} (hclosed : ∀ a ∈ s, ∀ p, parent a = some p → p ∈ s)
    (hacyclic : ∀ a ∈ s, ¬ OnCycle parent a) {m : α} (hm : m ∈ s) : ∃ l, Lineage parent m l := by
  by_contra hnone
  -- then the ascent never ends, and stays in the list
  have hmem : ∀ i, ∃ b ∈ s, ascent parent i m = some b := by
    intro i
    induction i with
    | zero => exact ⟨m, hm, rfl⟩
    | succ i ih =>
      obtain ⟨b, hb, hib⟩ := ih
      cases hi : ascent parent (i + 1) m with
      | none => exact absurd (lineage_of_ascent_eq_none hi) hnone
      | some c =>
        rw [ascent_add, hib] at hi
        have hc : parent b = some c := by
          cases hp : parent b with
          | none => simp [ascent, hp] at hi
          | some p => simpa [ascent, hp] using hi
        exact ⟨c, hclosed b hb c hc, rfl⟩
  have hne : ∀ i j, i < j → j < s.length + 1 → ascent parent i m ≠ ascent parent j m := by
    intro i j hij _ heq
    obtain ⟨b, hb, hib⟩ := hmem i
    refine hacyclic b hb ⟨j - i, by omega, ?_⟩
    have hj : ascent parent (i + (j - i)) m = some b := by rw [show i + (j - i) = j by omega, ← heq, hib]
    rw [ascent_add, hib] at hj
    exact hj
  have := ascent_bound (n := s.length + 1) (fun i _ => hmem i) hne
  omega

/-- An element on a cycle comes back to itself within as many steps as there are elements. -/
theorem OnCycle.exists_le {s : List α} (hclosed : ∀ a, ∀ p, parent a = some p → a ∈ s) {m : α}
    (h : OnCycle parent m) : ∃ k, 0 < k ∧ k ≤ s.length ∧ ascent parent k m = some m := by
  classical
  obtain ⟨hpos, hback⟩ := Nat.find_spec h
  refine ⟨Nat.find h, hpos, ?_, hback⟩
  refine @ascent_bound _ parent _ m _ ?_ ?_
  · intro i hi
    have hsplit : ascent parent (i + (Nat.find h - i)) m = some m := by
      rw [show i + (Nat.find h - i) = Nat.find h by omega]; exact hback
    rw [ascent_add] at hsplit
    cases hi' : ascent parent i m with
    | none => rw [hi'] at hsplit; cases hsplit
    | some b =>
      rw [hi'] at hsplit
      cases hp : parent b with
      | none =>
        obtain ⟨d, hd⟩ : ∃ d, Nat.find h - i = d + 1 := ⟨Nat.find h - i - 1, by omega⟩
        simp [hd, ascent, hp] at hsplit
      | some p => exact ⟨b, hclosed b p hp, rfl⟩
  · intro i j hij hj heq
    -- otherwise the part between `i` and `j` could be left out
    have hshort : ascent parent (i + (Nat.find h - j)) m = some m := by
      rw [ascent_add, heq, ← ascent_add, show j + (Nat.find h - j) = Nat.find h by omega]
      exact hback
    exact Nat.find_min h (show i + (Nat.find h - j) < Nat.find h by omega) ⟨by omega, hshort⟩

end MeaningForest

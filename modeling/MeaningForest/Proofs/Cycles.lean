import MeaningForest.Proofs.Accounting

/-!
# Cycles of parents

A declaration may name any parent, so the declared parents may run in cycles.  Each cycle is cut at the meaning of it
that is declared first, which becomes a root and is reported with the whole cycle.

* Following parents from an element of a cycle never ends and comes past the same elements from each of them
  (`OnCycle.exists_ascent`, `OnCycle.of_reaches`), so every cycle has one first element (`OnCycle.exists_heads`).
* `circuit_of_cycle?`: the list that is found for a meaning follows its cycle once.
* `Cut.breakCycle`, `exists_cut`: whatever was cut before, a meaning is on a cycle exactly if it is the first of one.
* `Analysis.exists_resolved`: the parents, submeanings and findings that the declarations of a file lead to.
-/

namespace MeaningForest

variable {lang : Language}

section Elements

variable {α : Type} {parent parent' : α → Option α}

/-! ### Elements on a cycle -/

/-- What following parents from an element passes, the element included. -/
def Reaches (parent : α → Option α) (a b : α) : Prop := ∃ k, ascent parent k a = some b

theorem Reaches.trans {a b c : α} (hab : Reaches parent a b) (hbc : Reaches parent b c) : Reaches parent a c := by
  obtain ⟨j, hj⟩ := hab
  obtain ⟨k, hk⟩ := hbc
  exact ⟨j + k, by rw [ascent_add, hj]; exact hk⟩

theorem Reaches.step {a b c : α} (hab : Reaches parent a b) (hc : parent b = some c) : Reaches parent a c :=
  hab.trans ⟨1, by simp [ascent, hc]⟩

/-- Where the parents of all that is passed agree, the ascents agree. -/
theorem ascent_congr {a : α} (h : ∀ b, Reaches parent a b → parent' b = parent b) (k : Nat) :
    ascent parent' k a = ascent parent k a := by
  induction k generalizing a with
  | zero => rfl
  | succ k ih =>
    rw [ascent, ascent, h a ⟨0, rfl⟩]
    cases hp : parent a with
    | none => rfl
    | some p => exact ih fun b hb => h b (Reaches.trans ⟨1, by simp [ascent, hp]⟩ hb)

theorem OnCycle.exists_period {a : α} (h : OnCycle parent a) (k : Nat) :
    ∃ j, k ≤ j ∧ 0 < j ∧ ascent parent j a = some a := by
  obtain ⟨p, hpos, hback⟩ := h
  induction k with
  | zero => exact ⟨p, Nat.zero_le p, hpos, hback⟩
  | succ k ih =>
    obtain ⟨j, hle, hj, hjback⟩ := ih
    exact ⟨j + p, by omega, by omega, by rw [ascent_add, hjback]; exact hback⟩

/-- Following parents from an element on a cycle never ends. -/
theorem OnCycle.exists_ascent {a : α} (h : OnCycle parent a) (k : Nat) : ∃ b, ascent parent k a = some b := by
  obtain ⟨j, hle, -, hback⟩ := h.exists_period k
  rw [← Nat.add_sub_cancel' hle, ascent_add, Option.bind_eq_some_iff] at hback
  obtain ⟨b, hb, -⟩ := hback
  exact ⟨b, hb⟩

/-- What is passed from an element of a cycle is on the cycle, and leads back. -/
theorem OnCycle.of_reaches {a b : α} (h : OnCycle parent a) (hb : Reaches parent a b) :
    OnCycle parent b ∧ Reaches parent b a := by
  obtain ⟨k, hk⟩ := hb
  obtain ⟨j, hle, hpos, hback⟩ := h.exists_period (k + 1)
  have hrest : ascent parent (j - k) b = some a := by
    rw [show j = k + (j - k) by omega, ascent_add, hk] at hback
    exact hback
  refine ⟨⟨j - k + k, by omega, ?_⟩, j - k, hrest⟩
  rw [ascent_add, hrest]
  exact hk

theorem OnCycle.exists_parent {a : α} (h : OnCycle parent a) : ∃ p, parent a = some p := by
  obtain ⟨p, hp⟩ := h.exists_ascent 1
  refine ⟨p, ?_⟩
  cases ha : parent a with
  | none => simp [ascent, ha] at hp
  | some q => simpa [ascent, ha] using hp

/-- A cycle of some of the parents is a cycle of all of them, and passes the same elements. -/
theorem OnCycle.reaches_iff (h : ∀ a p, parent' a = some p → parent a = some p) {a b : α}
    (ha : OnCycle parent' a) : Reaches parent' a b ↔ Reaches parent a b := by
  refine ⟨fun ⟨k, hk⟩ => ⟨k, ascent_mono h hk⟩, fun ⟨k, hk⟩ => ⟨k, ?_⟩⟩
  obtain ⟨c, hc⟩ := ha.exists_ascent k
  rw [hc, ← hk]
  exact (ascent_mono h hc).symm

/-- An element is on a cycle in whatever order, and no element of the cycle comes before it. -/
def Heads [BEq α] (parent : α → Option α) (order : List α) (m : α) : Prop :=
  OnCycle parent m ∧ ∀ b, Reaches parent m b → order.idxOf m ≤ order.idxOf b

theorem OnCycle.exists_heads [BEq α] {m : α} (h : OnCycle parent m) (order : List α) :
    ∃ b, Reaches parent m b ∧ Heads parent order b := by
  classical
  have hex : ∃ i, ∃ b, Reaches parent m b ∧ order.idxOf b = i := ⟨_, m, ⟨0, rfl⟩, rfl⟩
  obtain ⟨b, hb, hi⟩ := Nat.find_spec hex
  refine ⟨b, hb, (h.of_reaches hb).1, fun c hc => ?_⟩
  rw [hi]
  exact Nat.find_min' hex ⟨c, hb.trans hc, rfl⟩

/-- A cycle has one first element. -/
theorem Heads.eq [BEq α] [LawfulBEq α] {m b c : α} {order : List α} (hm : OnCycle parent m) (hb : Heads parent order b)
    (hc : Heads parent order c) (hmb : Reaches parent m b) (hmc : Reaches parent m c) (hmem : b ∈ order) : b = c := by
  have hbc : Reaches parent b c := (hm.of_reaches hmb).2.trans hmc
  have hcb : Reaches parent c b := (hm.of_reaches hmc).2.trans hmb
  exact (List.idxOf_inj hmem).1 (Nat.le_antisymm (hb.2 c hbc) (hc.2 b hcb))

/-! ### Lists that follow a cycle -/

/-- A list follows the cycle of an element once, from the element back to it. -/
structure Circuit (parent : α → Option α) (m : α) (l : List α) : Prop where
  ends : ∃ w, l = m :: w ++ [m]
  chain : l.IsChain fun a b => parent a = some b
  nodup : l.tail.Nodup
  mem_iff : ∀ b, b ∈ l ↔ Reaches parent m b

theorem reaches_of_isChain {a : α} {l : List α} (h : (a :: l).IsChain fun x y => parent x = some y) :
    ∀ b ∈ a :: l, Reaches parent a b := by
  induction l generalizing a with
  | nil =>
    intro b hb
    obtain rfl := List.mem_singleton.1 hb
    exact ⟨0, rfl⟩
  | cons c l ih =>
    obtain ⟨hc, hrest⟩ := List.isChain_cons_cons.1 h
    intro b hb
    rcases List.mem_cons.1 hb with rfl | hb
    · exact ⟨0, rfl⟩
    · exact Reaches.trans ⟨1, by simp [ascent, hc]⟩ (ih hrest b hb)

theorem exists_parent_of_isChain {l : List α} {m : α} (h : (l ++ [m]).IsChain fun x y => parent x = some y) {b : α}
    (hb : b ∈ l) : ∃ c ∈ l ++ [m], parent b = some c := by
  obtain ⟨u, v, rfl⟩ := List.append_of_mem hb
  rw [List.append_assoc, List.cons_append] at h
  cases v with
  | nil => exact ⟨m, by simp, (List.isChain_cons_cons.1 (List.isChain_append.1 h).2.1).1⟩
  | cons c v => exact ⟨c, by simp, (List.isChain_cons_cons.1 (List.isChain_append.1 h).2.1).1⟩

/-- From an element back to it, with nothing passed twice: that is its whole cycle. -/
theorem circuit_of_isChain {m : α} {w : List α} (h : (m :: w ++ [m]).IsChain fun a b => parent a = some b)
    (hnd : (w ++ [m]).Nodup) : Circuit parent m (m :: w ++ [m]) where
  ends := ⟨w, rfl⟩
  chain := h
  nodup := hnd
  mem_iff := by
    refine fun b => ⟨reaches_of_isChain h b, ?_⟩
    rintro ⟨k, hk⟩
    induction k generalizing b with
    | zero =>
      obtain rfl : m = b := Option.some.inj hk
      simp
    | succ k ih =>
      rw [ascent_add, Option.bind_eq_some_iff] at hk
      obtain ⟨c, hc, hcb⟩ := hk
      have hmem : c ∈ m :: w := by simpa [or_assoc, or_comm] using ih c hc
      obtain ⟨d, hd, hparent⟩ := exists_parent_of_isChain h hmem
      simp only [ascent, hparent, Option.bind_some, Option.some.injEq] at hcb
      exact hcb ▸ hd

theorem Circuit.mono (h : ∀ a p, parent' a = some p → parent a = some p) {m : α} {l : List α}
    (hl : Circuit parent' m l) : Circuit parent m l := by
  obtain ⟨w, rfl⟩ := hl.ends
  exact circuit_of_isChain (hl.chain.imp fun a b => h a b) hl.nodup

end Elements

/-! ### Cutting cycles -/

namespace Forest

variable {f : Forest} {m : Text}

/-- The way that is found from a meaning up to `m`, told without the parent of `m`: then it has no way on. -/
theorem lineage_of_wayTo? {a : Text} {steps : Nat} {way : List Text} (h : f.wayTo? m steps a = some way) :
    ∃ p, f.parent? a = some p ∧ Lineage (f.detach m).parent? p way.reverse ∧ ∃ w, way = w ++ [m] := by
  induction steps generalizing a way with
  | zero => cases h
  | succ steps ih =>
    rw [wayTo?] at h
    cases hp : f.parent? a with
    | none => rw [hp] at h; cases h
    | some p =>
      simp only [hp] at h
      refine ⟨p, rfl, ?_⟩
      split at h
      · rename_i hpm
        obtain rfl := Option.some.inj h
        subst hpm
        exact ⟨.root (by rw [parent?_detach, if_pos rfl]), [], rfl⟩
      · rename_i hpm
        obtain ⟨rest, hrest, rfl⟩ := Option.map_eq_some_iff.1 h
        obtain ⟨q, hq, hl, w, rfl⟩ := ih hrest
        rw [List.reverse_cons]
        exact ⟨.child (by rw [parent?_detach, if_neg hpm, hq]) hl, p :: w, rfl⟩

/-- The list that is found for a meaning follows its cycle once. -/
theorem circuit_of_cycle? {cycle : List Text} (h : f.cycle? m = some cycle) : Circuit f.parent? m cycle := by
  obtain ⟨way, hway, rfl⟩ := Option.map_eq_some_iff.1 h
  obtain ⟨p, hp, hl, w, rfl⟩ := lineage_of_wayTo? hway
  have hchain : (w ++ [m]).IsChain fun a b => f.parent? a = some b := by
    rw [← List.reverse_reverse (w ++ [m]), List.isChain_reverse]
    refine hl.isChain.imp fun a b hb => ?_
    exact (pruned_detach f m).parents b a hb
  refine circuit_of_isChain ?_ (List.nodup_reverse.1 hl.nodup)
  -- the way begins with the parent of `m`
  obtain ⟨r, hr⟩ := hl.exists_eq_append
  have hhead : (w ++ [m]).head? = some p := by rw [← List.reverse_reverse (w ++ [m]), hr]; simp
  rw [List.cons_append]
  cases hw : w ++ [m] with
  | nil => simp at hw
  | cons q rest =>
    rw [hw] at hhead hchain
    obtain rfl : q = p := Option.some.inj hhead
    exact hchain.cons_cons hp

/-- The forest in which the cycles of some meanings are cut, each at its first meaning. -/
structure Cut (f : Forest) (done : List ForestNode) (g : Forest) : Prop where
  pruned : Pruned f g
  cut : ∀ n ∈ done, Heads f.parent? f.names n.name → g.parent? n.name = none
  rest : ∀ m, (∀ n ∈ done, n.name = m → ¬ Heads f.parent? f.names m) → g.parent? m = f.parent? m

/-- The next meaning is still on a cycle exactly if it is the first of one: of a cycle with an earlier meaning the first
was cut, and nothing else was. -/
theorem Cut.onCycle_iff {done todo : List ForestNode} {n : ForestNode} {g : Forest} (h : Cut f done g)
    (hnd : f.names.Nodup) (hnodes : f.nodes = done ++ n :: todo) :
    OnCycle g.parent? n.name ↔ Heads f.parent? f.names n.name := by
  have hnames : f.names = done.map (·.name) ++ n.name :: todo.map (·.name) := by simp [names, hnodes]
  have hnew : n.name ∉ done.map (·.name) := notMem_of_nodup (hnames ▸ hnd)
  have hidx : f.names.idxOf n.name = done.length := by simp [hnames, List.idxOf_append, hnew]
  have hbefore : ∀ d ∈ done, f.names.idxOf d.name < f.names.idxOf n.name := by
    intro d hd
    have hd' : d.name ∈ done.map (·.name) := List.mem_map_of_mem hd
    have hlt := List.idxOf_lt_length_of_mem hd'
    rw [List.length_map] at hlt
    rw [hidx, hnames, List.idxOf_append, if_pos hd']
    exact hlt
  constructor
  · intro hg
    have hf := h.pruned.onCycle hg
    obtain ⟨b, hb, hfirst⟩ := hf.exists_heads f.names
    have hback := (hf.of_reaches hb).2
    refine ⟨hf, fun c hc => (Nat.le_of_not_lt fun hlt => ?_).trans (hfirst.2 c (hback.trans hc))⟩
    -- otherwise the first meaning of the cycle would have been cut
    have hmem : b ∈ done.map (·.name) := by
      rw [hidx, hnames, List.idxOf_append] at hlt
      by_contra hb'
      rw [if_neg hb', List.length_map] at hlt
      omega
    obtain ⟨d, hd, rfl⟩ := List.mem_map.1 hmem
    obtain ⟨p, hp⟩ := (hg.of_reaches ((hg.reaches_iff h.pruned.parents).2 hb)).1.exists_parent
    rw [h.cut d hd hfirst] at hp
    cases hp
  · intro hn
    have hsame : ∀ b, Reaches f.parent? n.name b → g.parent? b = f.parent? b := by
      rintro b hb
      refine h.rest b fun d hd hdb hheads => ?_
      have hle := hheads.2 n.name (hn.1.of_reaches hb).2
      have hlt := hdb ▸ hbefore d hd
      have := hn.2 b hb
      omega
    obtain ⟨k, hk, hback⟩ := hn.1
    exact ⟨k, hk, by rw [ascent_congr hsame, hback]⟩

/-- The finding reports the cycle of which a declaration is the first. -/
def ReportsCycle [lang : Language] (parent : Text → Option Text) (d : MeaningDecl) (x : Finding) : Prop :=
  x.position = d.parentPosition ∧ ∃ way, Circuit parent d.name way ∧ x.problem = .inheritanceCycle d.name way ∧
    x.message = Notice.inheritanceCycle.word lang [d.name, Text.join " -> " way]

/-- The next meaning is cut and its cycle reported, or it is the first of none and nothing happens. -/
theorem Cut.breakCycle {done todo : List ForestNode} {n : ForestNode} {acc : Forest × List Finding}
    (h : Cut f done acc.1) (hnd : f.names.Nodup) (hnodes : f.nodes = done ++ n :: todo) :
    Cut f (done ++ [n]) (Forest.breakCycle acc n).1 ∧
      ((¬ Heads f.parent? f.names n.name ∧ (Forest.breakCycle acc n).2 = acc.2) ∨
        (Heads f.parent? f.names n.name ∧
          ∃ x, ReportsCycle f.parent? n.decl x ∧ (Forest.breakCycle acc n).2 = acc.2 ++ [x])) := by
  have hiff := h.onCycle_iff hnd hnodes
  rw [Forest.breakCycle]
  cases hc : acc.1.cycle? n.name with
  | none =>
    have hn : ¬ Heads f.parent? f.names n.name := fun hn => cycle?_eq_none_iff.1 hc (hiff.2 hn)
    refine ⟨⟨h.pruned, fun d hd hheads => ?_, fun m hm => h.rest m fun d hd => hm d (by simp [hd])⟩, .inl ⟨hn, rfl⟩⟩
    rcases List.mem_append.1 hd with hd | hd
    · exact h.cut d hd hheads
    · exact absurd (List.mem_singleton.1 hd ▸ hheads) hn
  | some cycle =>
    have hn : Heads f.parent? f.names n.name := by
      refine hiff.1 ?_
      by_contra hnot
      rw [cycle?_eq_none_iff.2 hnot] at hc
      cases hc
    have hreports : ReportsCycle f.parent? n.decl (.found n.decl.parentPosition (.inheritanceCycle n.name cycle)) :=
      ⟨rfl, cycle, (circuit_of_cycle? hc).mono h.pruned.parents, rfl, rfl⟩
    refine ⟨⟨h.pruned.trans (pruned_detach _ _), fun d hd hheads => ?_, fun m hm => ?_⟩, .inr ⟨hn, _, hreports, rfl⟩⟩
    · rw [parent?_detach]
      split
      · rfl
      · rename_i hne
        rcases List.mem_append.1 hd with hd | hd
        · exact h.cut d hd hheads
        · exact absurd (List.mem_singleton.1 hd ▸ rfl) hne
    · have hne : m ≠ n.name := fun he => hm n (by simp) he.symm (he ▸ hn)
      rw [parent?_detach, if_neg hne]
      exact h.rest m fun d hd => hm d (by simp [hd])

/-- The meanings that are the first of a cycle are cut and reported, one after the other. -/
theorem exists_cut (hnd : f.names.Nodup) (done todo : List ForestNode) (hnodes : f.nodes = done ++ todo)
    (acc : Forest × List Finding) (h : Cut f done acc.1) : ∃ heads found,
      Cut f f.nodes (todo.foldl Forest.breakCycle acc).1 ∧ (todo.foldl Forest.breakCycle acc).2 = acc.2 ++ found ∧
      heads.Sublist (todo.map (·.decl)) ∧ (∀ n ∈ todo, n.decl ∈ heads ↔ Heads f.parent? f.names n.name) ∧
      List.Forall₂ (ReportsCycle f.parent?) heads found := by
  induction todo generalizing done acc with
  | nil =>
    rw [List.append_nil] at hnodes
    exact ⟨[], [], hnodes ▸ h, by simp, by simp, by simp, .nil⟩
  | cons n todo ih =>
    have hnew : n.decl ∉ todo.map (·.decl) := by
      intro hmem
      obtain ⟨x, hx, hdecl⟩ := List.mem_map.1 hmem
      have hname : n.name ∈ todo.map (·.name) := List.mem_map.2 ⟨x, hx, congrArg MeaningDecl.name hdecl⟩
      rw [names, hnodes, List.map_append, List.map_cons, List.nodup_append] at hnd
      exact (List.nodup_cons.1 hnd.2.1).1 hname
    obtain ⟨hcut, hstep⟩ := h.breakCycle hnd hnodes
    obtain ⟨heads, found, hg, hfound, hsub, hheads, hreports⟩ := ih (done ++ [n]) (by simpa using hnodes) _ hcut
    rw [List.foldl_cons]
    rcases hstep with ⟨hn, hsame⟩ | ⟨hn, x, hx, hreported⟩
    · refine ⟨heads, found, hg, by rw [hfound, hsame], hsub.cons _, fun d hd => ?_, hreports⟩
      rcases List.mem_cons.1 hd with rfl | hd
      · exact ⟨fun hmem => absurd (hsub.subset hmem) hnew, fun hd => absurd hd hn⟩
      · exact hheads d hd
    · refine ⟨n.decl :: heads, x :: found, hg, by rw [hfound, hreported, List.append_assoc]; rfl, hsub.cons_cons _,
        fun d hd => ?_, .cons hx hreports⟩
      rcases List.mem_cons.1 hd with rfl | hd
      · simp [hn]
      · have hne : d.decl ≠ n.decl := fun he => hnew (he ▸ List.mem_map_of_mem hd)
        rw [List.mem_cons, or_iff_right hne]
        exact hheads d hd

/-! ### Declared parents -/

/-- The parent that the declaration of a meaning names. -/
def declaredParent (decls : List MeaningDecl) (m : Text) : Option Text :=
  ((decls.find? (·.name == m)).map (·.parent)).filter (· ≠ [])

section Declared

variable {decls : List MeaningDecl}

theorem mem_names_of_declaredParent {p : Text} (h : declaredParent decls m = some p) : m ∈ decls.map (·.name) := by
  rw [declaredParent, Option.filter_eq_some_iff, Option.map_eq_some_iff] at h
  obtain ⟨⟨d, hd, -⟩, -⟩ := h
  have hname : d.name = m := by simpa using List.find?_some hd
  exact List.mem_map.2 ⟨d, List.mem_of_find?_eq_some hd, hname⟩

/-- A meaning has the parent that its declaration names, if that is registered. -/
theorem parent?_declared {p : Text} :
    (declared decls).parent? m = some p ↔ declaredParent decls m = some p ∧ p ∈ decls.map (·.name) := by
  have hnode : (declared decls).node? m = (decls.find? (·.name == m)).map (attach decls) := by
    rw [node?, declared, List.find?_map]
    rfl
  rw [parent?, hnode, declaredParent]
  cases decls.find? (·.name == m) with
  | none => simp
  | some d =>
    have hany : decls.any (·.name == d.parent) = true ↔ d.parent ∈ decls.map (·.name) := by simp
    simp only [Option.map_some, Option.bind_some, attach, Option.filter_eq_some_iff, Option.some.injEq, hany]
    by_cases hd : d.parent ≠ [] ∧ d.parent ∈ decls.map (·.name)
    · rw [if_pos hd]
      constructor
      · intro h
        obtain rfl := Option.some.inj h
        exact ⟨⟨rfl, by simpa using hd.1⟩, hd.2⟩
      · rintro ⟨⟨rfl, -⟩, -⟩
        rfl
    · rw [if_neg hd]
      constructor
      · intro h
        cases h
      · rintro ⟨⟨rfl, hne⟩, hmem⟩
        exact absurd ⟨by simpa using hne, hmem⟩ hd

/-- The meanings of a cycle are all registered, so the cycles of declared parents are those of registered ones. -/
theorem onCycle_declared : OnCycle (declared decls).parent? m ↔ OnCycle (declaredParent decls) m := by
  refine ⟨fun h => h.mono fun a p hp => (parent?_declared.1 hp).1, fun h => ?_⟩
  have hsame : ∀ b, Reaches (declaredParent decls) m b → (declared decls).parent? b = declaredParent decls b := by
    intro b hb
    obtain ⟨p, hp⟩ := (h.of_reaches hb).1.exists_parent
    obtain ⟨q, hq⟩ := (h.of_reaches (hb.step hp)).1.exists_parent
    rw [hp, parent?_declared]
    exact ⟨hp, mem_names_of_declaredParent hq⟩
  obtain ⟨k, hk, hback⟩ := h
  exact ⟨k, hk, by rw [ascent_congr hsame, hback]⟩

theorem heads_declared : Heads (declared decls).parent? (declared decls).names m ↔
    Heads (declaredParent decls) (decls.map (·.name)) m := by
  rw [Heads, Heads, onCycle_declared, names_declared]
  refine and_congr_right fun h => forall_congr' fun b => ?_
  rw [(onCycle_declared.2 h).reaches_iff fun a p hp => (parent?_declared.1 hp).1]

theorem declaredParent_of_mem (hnd : (decls.map (·.name)).Nodup) {d : MeaningDecl} (hd : d ∈ decls) :
    declaredParent decls d.name = if d.parent = [] then none else some d.parent := by
  have hfind : decls.find? (·.name == d.name) = some d := by
    cases hf : decls.find? (·.name == d.name) with
    | none => exact absurd (List.find?_eq_none.1 hf d hd) (by simp)
    | some e =>
      have hname : e.name = d.name := by simpa using List.find?_some hf
      rw [List.inj_on_of_nodup_map hnd (List.mem_of_find?_eq_some hf) hd hname]
  rw [declaredParent, hfind]
  by_cases hp : d.parent = [] <;> simp [hp, Option.filter]

end Declared

/-- What the parents of registered declarations come to, and the findings about them. -/
structure Resolved [Language] (decls : List MeaningDecl) (f : Forest) (found : List Finding) : Prop where
  acyclic : ∀ m, ¬ OnCycle f.parent? m
  keeps : ∀ d ∈ decls, d.parent ≠ [] → d.parent ∈ decls.map (·.name) →
    ¬ Heads (declaredParent decls) (decls.map (·.name)) d.name → f.parent? d.name = some d.parent
  loses : ∀ d ∈ decls, d.parent = [] ∨ d.parent ∉ decls.map (·.name) ∨
    Heads (declaredParent decls) (decls.map (·.name)) d.name → f.parent? d.name = none
  /-- A meaning that is on no cycle keeps its parent, also if that is on one. -/
  leads : ∀ d ∈ decls, d.parent ≠ [] → d.parent ∈ decls.map (·.name) → ¬ OnCycle (declaredParent decls) d.name →
    f.parent? d.name = some d.parent
  first : ∀ m, OnCycle (declaredParent decls) m → ∃! d, d ∈ decls ∧ Reaches (declaredParent decls) m d.name ∧
    Heads (declaredParent decls) (decls.map (·.name)) d.name
  reported : ∃ heads cycles,
    found = (decls.filter fun d => d.parent ≠ [] ∧ d.parent ∉ decls.map (·.name)).map
      (fun d => .found d.parentPosition (.unknownParent d.name d.parent)) ++ cycles ∧
    heads.Sublist decls ∧
    (∀ d ∈ decls, d ∈ heads ↔ Heads (declaredParent decls) (decls.map (·.name)) d.name) ∧
    List.Forall₂ (ReportsCycle (declaredParent decls)) heads cycles
  submeanings : ∀ m, (f.submeanings m).Nodup ∧ (f.submeanings m).Sublist (decls.map (·.name)) ∧
    ∀ s, s ∈ f.submeanings m ↔ f.parent? s = some m

theorem filterMap_unknownParent? (decls : List MeaningDecl) : decls.filterMap (unknownParent? decls) =
    (decls.filter fun d => d.parent ≠ [] ∧ d.parent ∉ decls.map (·.name)).map
      fun d => .found d.parentPosition (.unknownParent d.name d.parent) := by
  rw [← List.filterMap_eq_map, List.filterMap_filter]
  refine List.filterMap_congr fun d _ => ?_
  have hany : decls.any (·.name == d.parent) = true ↔ d.parent ∈ decls.map (·.name) := by simp
  simp only [unknownParent?, hany, decide_eq_true_eq, Function.comp]

/-- Whatever parents the registered declarations of a file name, they are resolved. -/
theorem exists_resolved_registered (arena : Text) (decls : List MeaningDecl) : ∃ found,
    (ofDecls arena decls).2 = (decls.foldl (register arena) ([], [])).2 ++ found ∧
      Resolved (registered arena decls) (ofDecls arena decls).1 found := by
  have hf := @ofDecls_sound lang arena decls
  have hnames : (ofDecls arena decls).1.names = (registered arena decls).map (·.name) := by
    rw [(pruned_ofDecls arena decls).names_eq, names_attached]
  have hofDecls : ofDecls arena decls =
      (((attached arena decls).nodes.foldl breakCycle (attached arena decls, [])).1,
        (decls.foldl (register arena) ([], [])).2 ++
          (registered arena decls).filterMap (unknownParent? (registered arena decls)) ++
          ((attached arena decls).nodes.foldl breakCycle (attached arena decls, [])).2) := rfl
  obtain ⟨heads, cycles, hcut, hfound, hsub, hheads, hreports⟩ :=
    exists_cut (f := attached arena decls) (by rw [names_attached, ← hnames]; exact hf.nodup) []
      (attached arena decls).nodes rfl (attached arena decls, []) ⟨.refl _, by simp, fun _ _ => rfl⟩
  rw [← show (ofDecls arena decls).1 = _ from congrArg Prod.fst hofDecls] at hcut
  have hmem : ∀ d ∈ registered arena decls, attach (registered arena decls) d ∈ (attached arena decls).nodes :=
    fun d hd => List.mem_map_of_mem hd
  have hdecls : (attached arena decls).nodes.map (·.decl) = registered arena decls := by
    rw [← (pruned_ofDecls arena decls).decls, decls_ofDecls]
  rw [List.nil_append] at hfound
  rw [hdecls] at hsub
  generalize hregistered : registered arena decls = ds at *
  have hattached : attached arena decls = declared ds := by rw [attached, hregistered]; rfl
  have hnd : (ds.map (·.name)).Nodup := hnames ▸ hf.nodup
  rw [hattached] at hcut hheads hreports hmem
  have hkeeps : ∀ d ∈ ds, d.parent ≠ [] → d.parent ∈ ds.map (·.name) →
      ¬ Heads (declaredParent ds) (ds.map (·.name)) d.name →
      (ofDecls arena decls).1.parent? d.name = some d.parent := by
    intro d hd hne hparent hfirst
    rw [hcut.rest d.name fun n _ _ hn => hfirst (heads_declared.1 hn), parent?_declared, declaredParent_of_mem hnd hd,
      if_neg hne]
    exact ⟨rfl, hparent⟩
  refine ⟨ds.filterMap (unknownParent? ds) ++ cycles, ?_, ?_⟩
  · rw [hofDecls, hfound, List.append_assoc]
  constructor
  · exact hf.acyclic
  · exact hkeeps
  · intro d hd hwhy
    cases hp : (ofDecls arena decls).1.parent? d.name with
    | none => rfl
    | some p =>
      obtain ⟨hdeclared, hparent⟩ := parent?_declared.1 (hcut.pruned.parents d.name p hp)
      rw [declaredParent_of_mem hnd hd] at hdeclared
      split at hdeclared
      · cases hdeclared
      · rename_i hne
        obtain rfl := Option.some.inj hdeclared
        rcases hwhy with hnone | hunknown | hfirst
        · exact absurd hnone hne
        · exact absurd hparent hunknown
        · have hcutoff : (ofDecls arena decls).1.parent? d.name = none :=
            hcut.cut _ (hmem d hd) (heads_declared.2 hfirst)
          rw [hcutoff] at hp
          cases hp
  · exact fun d hd hne hparent hoff => hkeeps d hd hne hparent fun hfirst => hoff hfirst.1
  · intro m hm
    obtain ⟨b, hb, hfirst⟩ := hm.exists_heads (ds.map (·.name))
    obtain ⟨p, hp⟩ := hfirst.1.exists_parent
    have hbmem := mem_names_of_declaredParent hp
    obtain ⟨d, hd, rfl⟩ := List.mem_map.1 hbmem
    refine ⟨d, ⟨hd, hb, hfirst⟩, ?_⟩
    rintro e ⟨he, hme, hefirst⟩
    exact List.inj_on_of_nodup_map hnd he hd (hfirst.eq hm hefirst hb hme hbmem).symm
  · refine ⟨heads, cycles, by rw [filterMap_unknownParent?], hsub, fun d hd => ?_, hreports.imp fun d x hx => ?_⟩
    · rw [← heads_declared]
      exact hheads _ (hmem d hd)
    · obtain ⟨hposition, way, hway, hproblem⟩ := hx
      exact ⟨hposition, way, hway.mono fun a p hp => (parent?_declared.1 hp).1, hproblem⟩
  · intro m
    refine ⟨hf.submeanings_nodup m, ?_, fun s => hf.mem_submeanings⟩
    rw [← hf.filter_names_parent, hnames]
    exact List.filter_sublist

end Forest

/-! ### The findings of a file -/

theorem Settled.exists_reported {δ κ : Type} {Keeps : List κ → δ → κ → Prop} {Reports : List κ → δ → Finding → Prop}
    {taken : List κ} {ds : List δ} {ks : List κ} {fs : List Finding} (h : Settled Keeps Reports taken ds ks fs) :
    ∀ f ∈ fs, ∃ taken d, Reports taken d f := by
  induction h with
  | nil => simp
  | kept _ _ ih => exact ih
  | reported hf _ ih =>
    intro f hmem
    rcases List.mem_cons.1 hmem with rfl | hmem
    · exact ⟨_, _, hf⟩
    · exact ih f hmem

namespace AnalysisProblem

/-- Whether the problem is about the parent of a meaning. -/
def isOfParents : AnalysisProblem → Bool
  | unknownParent .. | inheritanceCycle .. => true
  | _ => false

theorem ConcernsConstructor.not_ofParents {m : Text} {x : AnalysisProblem} (h : x.ConcernsConstructor m) :
    x.isOfParents = false := by
  cases x <;> first | rfl | exact h.elim

theorem ConcernsMethod.not_ofParents {m : Text} {d : MethodDecl} {x : AnalysisProblem} (h : x.ConcernsMethod m d) :
    x.isOfParents = false := by
  cases x <;> first | rfl | exact h.elim

end AnalysisProblem

theorem Forest.Rejects.not_ofParents {arena : Text} {taken : List MeaningDecl} {d : MeaningDecl} {f : Finding}
    (h : Forest.Rejects arena taken d f) : f.problem.isOfParents = false := by
  obtain ⟨problem, hr, rfl⟩ := h
  rw [Forest.rejection?] at hr
  split at hr
  · obtain rfl := Option.some.inj hr
    rfl
  · split at hr
    · obtain rfl := Option.some.inj hr
      rfl
    · split at hr
      · obtain rfl := Option.some.inj hr
        rfl
      · cases hr

theorem Forest.rejected_not_ofParents (arena : Text) (decls : List MeaningDecl) :
    ∀ f ∈ (decls.foldl (Forest.register arena) ([], [])).2, f.problem.isOfParents = false := by
  have hstep : ∀ (acc : List MeaningDecl × List Finding) d, (∀ f ∈ acc.2, f.problem.isOfParents = false) →
      ∀ f ∈ (Forest.register arena acc d).2, f.problem.isOfParents = false := by
    intro acc d hacc f hf
    rw [Forest.register] at hf
    split at hf
    · rename_i problem hr
      rcases List.mem_append.1 hf with hf | hf
      · exact hacc f hf
      · rw [List.mem_singleton.1 hf]
        exact Forest.Rejects.not_ofParents ⟨problem, hr, rfl⟩
    · exact hacc f hf
  induction decls using List.reverseRecOn with
  | nil => simp
  | append_singleton ds d ih =>
    rw [List.foldl_append]
    exact hstep _ d ih

theorem Forest.nameFindings_not_ofParents (f : Forest) (arena : Text) :
    ∀ x ∈ f.nameFindings arena, x.problem.isOfParents = false := by
  have hclashes : ∀ nodes : List ForestNode, ∀ x ∈ (nodes.foldl f.takeTopLevel ([], [])).2,
      x.problem.isOfParents = false := by
    intro nodes
    induction nodes using List.reverseRecOn with
    | nil => simp
    | append_singleton nodes n ih =>
      intro x hx
      rw [List.foldl_append, List.foldl_cons, List.foldl_nil, Forest.takeTopLevel] at hx
      split at hx
      · rcases List.mem_append.1 hx with hx | hx
        · exact ih x hx
        · rw [List.mem_singleton.1 hx]
          rfl
      · exact ih x hx
  intro x hx
  rw [Forest.nameFindings] at hx
  rcases List.mem_append.1 hx with hx | hx
  · rcases List.mem_append.1 hx with hx | hx
    · exact hclashes _ x hx
    · split at hx
      · rw [List.mem_singleton.1 hx]
        rfl
      · cases hx
  · obtain ⟨n, -, rfl⟩ := List.mem_map.1 hx
    rfl

/-- No finding of a profile is about a parent. -/
theorem Profile.Breakdown.not_ofParents {above : List Profile} {p : Profile} {generated : List Member}
    {reserved fields ctor methods : List Finding} {entries : List Profile.MethodEntry}
    (h : p.Breakdown above generated reserved fields ctor methods entries) :
    ∀ f ∈ p.findings, f.problem.isOfParents = false := by
  intro f hf
  rw [h.findings_eq, List.mem_append, List.mem_append, List.mem_append, List.mem_append] at hf
  obtain (((hf | hf) | hf) | hf) | hf := hf
  · obtain ⟨-, member, owner, hproblem⟩ := h.about_reserved f hf
    rw [hproblem]
    rfl
  · obtain ⟨taken, d, -, hwhy⟩ := h.settled_fields.exists_reported f hf
    obtain ⟨-, hproblem⟩ | ⟨-, member, -, e, -, -, hproblem⟩ := hwhy
    · rw [hproblem]
      rfl
    · rw [hproblem]
      rfl
  · obtain ⟨c, -, rfl⟩ := List.mem_map.1 hf
    rfl
  · exact (h.about_ctor f hf).2.not_ofParents
  · obtain ⟨taken, d, -, hproblem⟩ := h.settled_methods.exists_reported f hf
    exact hproblem.not_ofParents

namespace Forest

theorem Resolved.ofParents {decls : List MeaningDecl} {f : Forest} {found : List Finding}
    (h : Resolved decls f found) : ∀ x ∈ found, x.problem.isOfParents = true := by
  obtain ⟨heads, cycles, rfl, -, -, hcycles⟩ := h.reported
  intro x hx
  rcases List.mem_append.1 hx with hx | hx
  · obtain ⟨d, -, rfl⟩ := List.mem_map.1 hx
    rfl
  · obtain ⟨i, hi, rfl⟩ := List.getElem_of_mem hx
    obtain ⟨-, way, -, hproblem, -⟩ := hcycles.get (hcycles.length_eq ▸ hi) hi
    rw [List.get_eq_getElem] at hproblem
    rw [hproblem]
    rfl

end Forest

namespace Analysis

variable {a : Analysis}

/-- The symbols of the meanings have the parents and submeanings of the forest. -/
structure Linked (a : Analysis) (r : Recording) : Prop where
  meaning : ∀ m ∈ a.forest.names, ∃ d, r.table.meaning (r.symbol m) = .ok d ∧ d.name = m ∧
    d.inherits = (a.forest.parent? m).bind r.symbol ∧ d.submeanings = (a.forest.submeanings m).map r.symbol
  distinct : ∀ m ∈ a.forest.names, ∀ m' ∈ a.forest.names, r.symbol m = r.symbol m' → m = m'

theorem Complete.exists_linked (ha : a.Complete) (hcount : a.symbolCount ≤ 4294967296) (t : SymbolTable) :
    ∃ r, a.record t = .ok r ∧ a.Linked r := by
  obtain ⟨r, n, hr, h⟩ := ha.exists_record t hcount
  refine ⟨r, hr, fun m hm => ?_, fun m hm m' hm' he => h.injective hm hm' he⟩
  obtain ⟨d, hd, hdm⟩ := h.meaning m hm
  exact ⟨d, hd, hdm.name, hdm.inherits, hdm.submeanings⟩

theorem Complete.filter_findings (ha : a.Complete) {found : List Finding}
    (hfound : (Forest.ofDecls a.arena a.file.meanings).2 =
      (a.file.meanings.foldl (Forest.register a.arena) ([], [])).2 ++ found)
    (h : ∀ x ∈ found, x.problem.isOfParents = true) : a.findings.filter (·.problem.isOfParents) = found := by
  have hnone : ∀ {l : List Finding}, (∀ x ∈ l, x.problem.isOfParents = false) →
      l.filter (·.problem.isOfParents) = [] := by
    intro l hl
    rw [List.filter_eq_nil_iff]
    exact fun x hx => by rw [hl x hx]; exact Bool.false_ne_true
  have hprofiles : ∀ x ∈ a.profiles.flatMap (·.findings), x.problem.isOfParents = false := by
    intro x hx
    obtain ⟨p, hp, hxp⟩ := List.mem_flatMap.1 hx
    obtain ⟨_, _, _, _, _, _, _, _, -, hbreakdown⟩ := ha.exists_breakdown hp
    exact hbreakdown.not_ofParents x hxp
  rw [ha.findings_eq, hfound]
  simp only [List.filter_append]
  rw [hnone (Forest.rejected_not_ofParents _ _), hnone (Forest.nameFindings_not_ofParents _ _), hnone hprofiles,
    List.filter_eq_self.2 h]
  simp

/-- The parents that a file declares are resolved to a forest, whatever they are.  The findings about parents are those
about unknown ones and one for each cycle, and the symbols are linked as the forest says, provided that an index of 32
bits tells them apart. -/
theorem exists_resolved (settings : Settings) (file : DeclFile) : ∃ a found, ofFile settings file = .ok a ∧
    a.file = file ∧ a.forest.nodes.map (·.decl) = Forest.registered a.arena file.meanings ∧
    a.findings.filter (·.problem.isOfParents) = found ∧
    Forest.Resolved (Forest.registered a.arena file.meanings) a.forest found ∧ a.symbolCount ≤ declarationCount file ∧
    (a.symbolCount ≤ 4294967296 → ∀ t, ∃ r, a.record t = .ok r ∧ a.Linked r) := by
  obtain ⟨a, hofFile, rfl, -, ha⟩ := exists_ofFile settings file
  obtain ⟨found, hfound, h⟩ := Forest.exists_resolved_registered a.arena a.file.meanings
  rw [← ha.forest_eq] at h
  refine ⟨a, found, hofFile, rfl, ?_, ha.filter_findings hfound h.ofParents, h, ha.symbolCount_le,
    fun hcount t => ha.exists_linked hcount t⟩
  rw [ha.forest_eq, Forest.decls_ofDecls]

/-- A meaning that is its own parent, a cycle of three with a branch, one of them declared again, and a parent that
nobody declares. -/
def knotted : DeclFile :=
  let meaning (name parent : Text) : MeaningDecl :=
    { position := ⟨1, 1⟩, name, parent, parentPosition := ⟨1, 1⟩, doc := [], fields := [], constructors := []
      methods := [] }
  { name := "knotted.mt", meanings := [meaning "Leaf" "Twig", meaning "Twig" "C", meaning "Self" "Self",
      meaning "B" "C", meaning "C" "A", meaning "A" "B", meaning "B" [], meaning "Lost" "Nowhere"] }

theorem exists_resolved_knotted : ∃ a found r, @ofFile .english {} knotted = .ok a ∧
    a.findings.filter (·.problem.isOfParents) = found ∧
    @Forest.Resolved .english (@Forest.registered .english a.arena knotted.meanings) a.forest found ∧
    a.record {} = .ok r ∧ a.Linked r := by
  obtain ⟨a, found, hofFile, -, -, hfound, h, hcount, hlinked⟩ := exists_resolved {} knotted
  obtain ⟨r, hr, hr'⟩ := hlinked (hcount.trans (by decide)) {}
  exact ⟨a, found, r, hofFile, hfound, h, hr, hr'⟩

example : (@Forest.ofDecls .english "Arena" knotted.meanings).2.map (·.problem) =
    [.duplicateMeaning "B", .unknownParent "Lost" "Nowhere", .inheritanceCycle "Self" ["Self", "Self"],
      .inheritanceCycle "B" ["B", "C", "A", "B"]] := by decide +kernel

end Analysis

end MeaningForest

import MeaningForest.Analysis.Forest
import MeaningForest.Proofs.Lineage

/-!
# The forest of a declaration file

Whatever a file declares, the forest made of it is sound: names are distinct, parents are registered and nothing is
its own ancestor (`ofDecls_sound`).  In a sound forest every meaning has an ancestry, and the computed one is its
lineage (`Sound.exists_lineage`, `Sound.ascending_eq`).  A file without findings has all its declarations registered
(`decls_of_clean`).

Cycles are broken one meaning after the other.  Breaking only removes parents (`Pruned`), so a meaning that was found
to be on no cycle stays on none, and in the end there is no cycle left.
-/

namespace MeaningForest.Forest

variable {lang : Language}

/-- What holds of the forest of every declaration file. -/
structure Sound (f : Forest) : Prop where
  nodup : f.names.Nodup
  closed : ∀ m p, f.parent? m = some p → p ∈ f.names
  acyclic : ∀ m, ¬ OnCycle f.parent? m

/-! ### Nodes by name -/

theorem mem_names {f : Forest} {n : ForestNode} (h : n ∈ f.nodes) : n.name ∈ f.names := List.mem_map_of_mem h

/-- The node of a name is the only one with this name. -/
theorem node?_of_mem {f : Forest} (hnd : f.names.Nodup) {n : ForestNode} (h : n ∈ f.nodes) :
    f.node? n.name = some n := by
  unfold node? names at *
  generalize f.nodes = nodes at *
  induction nodes with
  | nil => cases h
  | cons a nodes ih =>
    rw [List.map_cons, List.nodup_cons] at hnd
    rcases List.mem_cons.1 h with rfl | h
    · simp
    · have hne : a.name ≠ n.name := fun he => hnd.1 (he ▸ List.mem_map_of_mem h)
      rw [List.find?_cons_of_neg (by simpa using hne)]
      exact ih hnd.2 h

theorem node?_eq_some {f : Forest} {m : Text} {n : ForestNode} (h : f.node? m = some n) :
    n ∈ f.nodes ∧ n.name = m :=
  ⟨List.mem_of_find?_eq_some h, by simpa using List.find?_some h⟩

theorem exists_node {f : Forest} {m : Text} (h : m ∈ f.names) : ∃ n ∈ f.nodes, n.name = m := by
  simpa [names] using h

theorem parent?_of_mem {f : Forest} (hnd : f.names.Nodup) {n : ForestNode} (h : n ∈ f.nodes) :
    f.parent? n.name = n.parent := by
  rw [parent?, node?_of_mem hnd h]
  rfl

theorem mem_names_of_parent? {f : Forest} {m p : Text} (h : f.parent? m = some p) : m ∈ f.names := by
  rw [parent?, Option.bind_eq_some_iff] at h
  obtain ⟨n, hn, -⟩ := h
  obtain ⟨hmem, rfl⟩ := node?_eq_some hn
  exact mem_names hmem

/-! ### Ancestries -/

namespace Sound

variable {f : Forest}

theorem exists_lineage (hf : f.Sound) (m : Text) : ∃ l, Lineage f.parent? m l := by
  by_cases hm : m ∈ f.names
  · exact MeaningForest.exists_lineage (fun a _ p hp => hf.closed a p hp) (fun a _ => hf.acyclic a) hm
  · refine ⟨[m], .root ?_⟩
    cases hp : f.parent? m with
    | none => rfl
    | some p => exact absurd (mem_names_of_parent? hp) hm

/-- The ancestors of a meaning are registered. -/
theorem mem_names_of_lineage (hf : f.Sound) {m a : Text} {l : List Text} (h : Lineage f.parent? m l) (ha : a ∈ l)
    (hm : m ∈ f.names) : a ∈ f.names := by
  induction h with
  | root _ => simpa using List.mem_singleton.1 ha ▸ hm
  | child hp _ ih =>
    rw [List.mem_append, List.mem_singleton] at ha
    rcases ha with ha | rfl
    · exact ih ha (hf.closed _ _ hp)
    · exact hm

theorem length_lineage_le (hf : f.Sound) {m : Text} {l : List Text} (h : Lineage f.parent? m l) :
    l.length ≤ f.nodes.length + 1 := by
  cases h with
  | root _ => simp
  | child hp hl =>
    have hsub := List.Nodup.length_le_of_subset hl.nodup
      (fun a ha => hf.mem_names_of_lineage hl ha (hf.closed _ _ hp))
    simp only [names, List.length_map] at hsub
    simpa using hsub

theorem ascending_eq (hf : f.Sound) {m : Text} {l : List Text} (h : Lineage f.parent? m l) :
    f.ascending m = .ok l :=
  ancestry_eq_ok h (fun _ _ => rfl) (hf.length_lineage_le h)

theorem filter_names_parent (hf : f.Sound) (m : Text) :
    f.names.filter (fun x => f.parent? x == some m) = f.submeanings m := by
  rw [names, List.filter_map, submeanings]
  congr 1
  refine List.filter_congr fun n hn => ?_
  simp [parent?_of_mem hf.nodup hn]

theorem mem_submeanings (hf : f.Sound) {m s : Text} : s ∈ f.submeanings m ↔ f.parent? s = some m := by
  rw [← hf.filter_names_parent, List.mem_filter, beq_iff_eq, and_iff_right_iff_imp]
  exact mem_names_of_parent?

theorem submeanings_nodup (hf : f.Sound) (m : Text) : (f.submeanings m).Nodup := by
  rw [← hf.filter_names_parent]
  exact hf.nodup.filter _

end Sound

theorem lineage_of_ascending {f : Forest} {m : Text} {l : List Text} (h : f.ascending m = .ok l) :
    Lineage f.parent? m l :=
  lineage_of_ancestry h

/-! ### Registration -/

/-- A declaration is registered or reported, never both. -/
theorem register_cases (arena : Text) (acc : List MeaningDecl × List Finding) (d : MeaningDecl) :
    (∃ p, register arena acc d = (acc.1, acc.2 ++ [.found d.position p])) ∨
      (register arena acc d = (acc.1 ++ [d], acc.2) ∧ d.name ∉ acc.1.map (·.name)) := by
  rw [register]
  cases h : rejection? arena acc.1 d with
  | some p => exact .inl ⟨p, rfl⟩
  | none =>
    refine .inr ⟨rfl, fun hmem => ?_⟩
    obtain ⟨e, he, hname⟩ := List.mem_map.1 hmem
    have : acc.1.any (·.name == d.name) = true := List.any_eq_true.2 ⟨e, he, by simpa using hname⟩
    simp [rejection?, this] at h

theorem foldl_register_nodup (arena : Text) (decls : List MeaningDecl) {acc : List MeaningDecl × List Finding}
    (h : (acc.1.map (·.name)).Nodup) : ((decls.foldl (register arena) acc).1.map (·.name)).Nodup := by
  induction decls generalizing acc with
  | nil => exact h
  | cons d decls ih =>
    apply ih
    rcases register_cases arena acc d with ⟨p, he⟩ | ⟨he, hnew⟩
    · rw [he]
      exact h
    · rw [he, List.map_append, List.nodup_append]
      refine ⟨h, by simp, ?_⟩
      rintro a ha b hb rfl
      obtain rfl : a = d.name := by simpa using hb
      exact hnew ha

/-- Findings stay, and without a new one every declaration was registered. -/
theorem foldl_register_clean (arena : Text) (decls : List MeaningDecl) {acc : List MeaningDecl × List Finding}
    (h : (decls.foldl (register arena) acc).2 = []) : acc.2 = [] ∧
      (decls.foldl (register arena) acc).1 = acc.1 ++ decls := by
  induction decls generalizing acc with
  | nil => exact ⟨h, by simp⟩
  | cons d decls ih =>
    obtain ⟨h₁, h₂⟩ := ih h
    rcases register_cases arena acc d with ⟨p, he⟩ | ⟨he, -⟩
    · rw [he] at h₁
      simp at h₁
    · rw [he] at h₁
      refine ⟨h₁, ?_⟩
      rw [List.foldl_cons, h₂, he]
      simp

theorem foldl_register_sublist (arena : Text) (decls : List MeaningDecl) (acc : List MeaningDecl × List Finding) :
    (decls.foldl (register arena) acc).1.Sublist (acc.1 ++ decls) := by
  induction decls generalizing acc with
  | nil => simp
  | cons d decls ih =>
    have hrest := ih (register arena acc d)
    rcases register_cases arena acc d with ⟨p, he⟩ | ⟨he, -⟩
    · rw [he] at hrest
      rw [List.foldl_cons, he]
      exact hrest.trans (List.Sublist.append_left (List.sublist_cons_self d decls) _)
    · rw [he] at hrest
      rw [List.foldl_cons, he]
      simpa using hrest

/-! ### Breaking cycles -/

/-- `g` is `f` with some parents removed. -/
structure Pruned (f g : Forest) : Prop where
  decls : g.nodes.map (·.decl) = f.nodes.map (·.decl)
  parents : ∀ m p, g.parent? m = some p → f.parent? m = some p

namespace Pruned

variable {f g h : Forest}

theorem refl (f : Forest) : Pruned f f := ⟨rfl, fun _ _ hp => hp⟩

theorem trans (hfg : Pruned f g) (hgh : Pruned g h) : Pruned f h :=
  ⟨hgh.decls.trans hfg.decls, fun m p hp => hfg.parents m p (hgh.parents m p hp)⟩

theorem names_eq (hfg : Pruned f g) : g.names = f.names := by
  have := congrArg (List.map MeaningDecl.name) hfg.decls
  simpa [names, ForestNode.name, Function.comp_def] using this

/-- Removing parents makes no cycle. -/
theorem onCycle (hfg : Pruned f g) {m : Text} (h : OnCycle g.parent? m) : OnCycle f.parent? m := h.mono hfg.parents

end Pruned

theorem parent?_detach (f : Forest) (m a : Text) :
    (f.detach m).parent? a = if a = m then none else f.parent? a := by
  have hname : ∀ n : ForestNode, (if n.name = m then { n with parent := none } else n).name = n.name := by
    intro n
    split <;> rfl
  have hnode : (f.detach m).node? a =
      (f.node? a).map fun n => if n.name = m then { n with parent := none } else n := by
    simp only [node?, detach, List.find?_map]
    congr 2
    funext n
    simp [hname]
  rw [parent?, hnode]
  cases hn : f.node? a with
  | none => simp [parent?, hn]
  | some n =>
    obtain ⟨-, rfl⟩ := node?_eq_some hn
    simp only [parent?, hn, Option.map_some, Option.bind_some]
    split <;> rfl

theorem pruned_detach (f : Forest) (m : Text) : Pruned f (f.detach m) where
  decls := by
    rw [detach, List.map_map]
    apply List.map_congr_left
    intro n _
    simp only [Function.comp]
    split <;> rfl
  parents := by
    intro a p h
    rw [parent?_detach] at h
    split at h
    · cases h
    · exact h

/-- A way that is not found within a number of steps does not exist within them. -/
theorem wayTo?_eq_none {f : Forest} {m a : Text} {steps : Nat} (h : f.wayTo? m steps a = none) :
    ∀ k, 0 < k → k ≤ steps → ascent f.parent? k a ≠ some m := by
  induction steps generalizing a with
  | zero => intro k h₁ h₂; omega
  | succ steps ih =>
    intro k hk hle
    obtain ⟨k, rfl⟩ : ∃ j, k = j + 1 := ⟨k - 1, by omega⟩
    rw [ascent]
    rw [wayTo?] at h
    cases hp : f.parent? a with
    | none => simp
    | some p =>
      rw [hp] at h
      by_cases hpm : p = m
      · simp [hpm] at h
      · simp only [hpm, if_false, Option.map_eq_none_iff] at h
        cases k with
        | zero => simpa [ascent] using hpm
        | succ k => exact ih h (k + 1) (by omega) (by omega)

theorem not_onCycle_of_cycle? {f : Forest} {m : Text} (h : f.cycle? m = none) : ¬ OnCycle f.parent? m := by
  intro hm
  rw [cycle?, Option.map_eq_none_iff] at h
  obtain ⟨k, hk, hle, hback⟩ := hm.exists_le (s := f.names) (fun a p hp => mem_names_of_parent? hp)
  simp only [names, List.length_map] at hle
  exact wayTo?_eq_none h k hk hle hback

/-- Breaking the cycle of a meaning removes parents only, and then the meaning is on no cycle. -/
theorem breakCycle_spec (acc : Forest × List Finding) (n : ForestNode) :
    Pruned acc.1 (breakCycle acc n).1 ∧ ¬ OnCycle (breakCycle acc n).1.parent? n.name := by
  rw [breakCycle]
  cases h : acc.1.cycle? n.name with
  | none => exact ⟨.refl _, not_onCycle_of_cycle? h⟩
  | some cycle =>
    refine ⟨pruned_detach _ _, ?_⟩
    rintro ⟨k, hk, hback⟩
    obtain ⟨k, rfl⟩ : ∃ j, k = j + 1 := ⟨k - 1, by omega⟩
    rw [ascent, parent?_detach, if_pos rfl] at hback
    cases hback

theorem foldl_breakCycle_spec (nodes : List ForestNode) (acc : Forest × List Finding) :
    Pruned acc.1 (nodes.foldl breakCycle acc).1 ∧
      ∀ n ∈ nodes, ¬ OnCycle (nodes.foldl breakCycle acc).1.parent? n.name := by
  induction nodes generalizing acc with
  | nil => exact ⟨.refl _, by simp⟩
  | cons n nodes ih =>
    obtain ⟨hp, hn⟩ := breakCycle_spec acc n
    obtain ⟨hp', hn'⟩ := ih (breakCycle acc n)
    refine ⟨hp.trans hp', ?_⟩
    intro x hx
    rcases List.mem_cons.1 hx with rfl | hx
    · exact fun hc => hn (hp'.onCycle hc)
    · exact hn' x hx

/-! ### The forest of declarations -/

/-- The declarations that are registered. -/
def registered [Language] (arena : Text) (decls : List MeaningDecl) : List MeaningDecl :=
  (decls.foldl (register arena) ([], [])).1

/-- The registered declarations with the parents they name. -/
def attached [Language] (arena : Text) (decls : List MeaningDecl) : Forest :=
  ⟨(registered arena decls).map (attach (registered arena decls))⟩

theorem names_attached (arena : Text) (decls : List MeaningDecl) :
    (attached arena decls).names = (registered arena decls).map (·.name) := by
  simp [attached, names, ForestNode.name, attach, Function.comp_def]

/-- The forest of a file comes from the declared one by removing parents. -/
theorem pruned_ofDecls (arena : Text) (decls : List MeaningDecl) :
    Pruned (attached arena decls) (ofDecls arena decls).1 :=
  (foldl_breakCycle_spec _ (attached arena decls, [])).1

theorem attached_closed (arena : Text) (decls : List MeaningDecl) (m p : Text)
    (h : (attached arena decls).parent? m = some p) : p ∈ (attached arena decls).names := by
  rw [parent?, Option.bind_eq_some_iff] at h
  obtain ⟨n, hn, hp⟩ := h
  obtain ⟨d, -, rfl⟩ := List.mem_map.1 (node?_eq_some hn).1
  simp only [attach] at hp
  split at hp
  · rename_i hreg
    obtain ⟨e, he, hname⟩ := List.any_eq_true.1 hreg.2
    rw [names_attached]
    cases hp
    exact List.mem_map.2 ⟨e, he, by simpa using hname⟩
  · cases hp

theorem ofDecls_sound (arena : Text) (decls : List MeaningDecl) : (ofDecls arena decls).1.Sound where
  nodup := by
    rw [(pruned_ofDecls arena decls).names_eq, names_attached]
    exact foldl_register_nodup arena decls (by simp)
  closed := by
    intro m p h
    rw [(pruned_ofDecls arena decls).names_eq]
    exact attached_closed arena decls m p ((pruned_ofDecls arena decls).parents m p h)
  acyclic := by
    intro m hm
    -- only registered meanings have parents, and each of them was taken off its cycle
    have hmem : m ∈ (attached arena decls).names := by
      obtain ⟨k, hk, hback⟩ := (pruned_ofDecls arena decls).onCycle hm
      obtain ⟨k, rfl⟩ : ∃ j, k = j + 1 := ⟨k - 1, by omega⟩
      rw [ascent, Option.bind_eq_some_iff] at hback
      obtain ⟨p, hp, -⟩ := hback
      exact mem_names_of_parent? hp
    obtain ⟨n, hn, rfl⟩ := exists_node hmem
    exact (foldl_breakCycle_spec _ (attached arena decls, [])).2 n hn hm

theorem decls_ofDecls (arena : Text) (decls : List MeaningDecl) :
    (ofDecls arena decls).1.nodes.map (·.decl) = registered arena decls := by
  rw [(pruned_ofDecls arena decls).decls]
  simp [attached, attach, Function.comp_def]

/-- Without findings every declaration is registered. -/
theorem decls_of_clean {arena : Text} {decls : List MeaningDecl} (h : (ofDecls arena decls).2 = []) :
    (ofDecls arena decls).1.nodes.map (·.decl) = decls := by
  have hclean : (decls.foldl (register arena) ([], [])).2 = [] := by
    simp only [ofDecls_eq, List.append_eq_nil_iff] at h
    exact h.1.1
  rw [decls_ofDecls, registered, (foldl_register_clean arena decls hclean).2]
  rfl

end MeaningForest.Forest

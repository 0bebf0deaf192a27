import Mathlib.Data.List.Forall2

/-!
# Runs without faults

Operations that can be misused answer `Except`.  These are the rules by which a run of such operations is shown to
give a result: for one operation after another (`bind_eq_ok`), for an operation on each element of a list
(`mapM_eq_ok_iff`) and for a state that is passed along a list (`exists_foldlM_ok`), also for two states that are
compared after each element (`foldlM_lockstep`).
-/

namespace MeaningForest

variable {ε α β σ : Type}

theorem bind_eq_ok {x : Except ε α} {f : α → Except ε β} {b : β} :
    (x >>= f) = .ok b ↔ ∃ a, x = .ok a ∧ f a = .ok b := by
  cases x with
  | error e => simp [bind, Except.bind]
  | ok a => simp [bind, Except.bind]

/-- A list is mapped without a fault exactly if each element is. -/
theorem mapM_eq_ok_iff {f : α → Except ε β} {l : List α} {r : List β} :
    l.mapM f = .ok r ↔ List.Forall₂ (fun a b => f a = .ok b) l r := by
  induction l generalizing r with
  | nil => simp [pure, Except.pure, eq_comm]
  | cons a l ih =>
    simp only [List.mapM_cons, bind_eq_ok, pure, Except.pure, Except.ok.injEq, List.forall₂_cons_left_iff, ih]
    constructor
    · rintro ⟨b, hb, bs, hbs, rfl⟩
      exact ⟨b, bs, hb, hbs, rfl⟩
    · rintro ⟨b, bs, hb, hbs, rfl⟩
      exact ⟨b, hb, bs, hbs, rfl⟩

theorem mem_of_mapM_ok {f : α → Except ε β} {l : List α} {r : List β} (h : l.mapM f = .ok r) {b : β} (hb : b ∈ r) :
    ∃ a ∈ l, f a = .ok b := by
  have h' := mapM_eq_ok_iff.1 h
  clear h
  induction h' with
  | nil => cases hb
  | cons hab _ ih =>
    rcases List.mem_cons.1 hb with rfl | hb
    · exact ⟨_, by simp, hab⟩
    · obtain ⟨a, ha, hfa⟩ := ih hb
      exact ⟨a, by simp [ha], hfa⟩

theorem mem_of_forall_ok {f : α → Except ε β} {l : List α} {r : List β} (h : l.mapM f = .ok r) {a : α} (ha : a ∈ l)
    {b : β} (hab : f a = .ok b) : b ∈ r := by
  have h' := mapM_eq_ok_iff.1 h
  clear h
  induction h' with
  | nil => cases ha
  | cons hcd _ ih =>
    rcases List.mem_cons.1 ha with rfl | ha
    · rw [hab] at hcd
      cases hcd
      simp
    · exact List.mem_cons_of_mem _ (ih ha)

/-- If the elements can be read off the results, the list can. -/
theorem map_eq_of_mapM_ok {f : α → Except ε β} {g : β → α} (hg : ∀ a b, f a = .ok b → g b = a) {l : List α}
    {r : List β} (h : l.mapM f = .ok r) : r.map g = l := by
  have h' := mapM_eq_ok_iff.1 h
  clear h
  induction h' with
  | nil => rfl
  | cons hab _ ih => rw [List.map_cons, hg _ _ hab, ih]

theorem exists_mapM_ok {f : α → Except ε β} {l : List α} (h : ∀ a ∈ l, ∃ b, f a = .ok b) :
    ∃ r, l.mapM f = .ok r := by
  induction l with
  | nil => exact ⟨[], rfl⟩
  | cons a l ih =>
    obtain ⟨b, hb⟩ := h a (by simp)
    obtain ⟨bs, hbs⟩ := ih (fun c hc => h c (by simp [hc]))
    exact ⟨b :: bs, mapM_eq_ok_iff.2 (.cons hb (mapM_eq_ok_iff.1 hbs))⟩

/-- The elements that are kept are mapped as they are among the others, if it can be told from a result whether its
element is kept. -/
theorem mapM_filter {f g : α → Except ε β} {p : α → Bool} {q : β → Bool} {l : List α} {r : List β}
    (h : l.mapM f = .ok r) (hq : ∀ a b, f a = .ok b → q b = p a) (hg : ∀ a ∈ l, p a → g a = f a) :
    (l.filter p).mapM g = .ok (r.filter q) := by
  rw [mapM_eq_ok_iff] at h ⊢
  induction h with
  | nil => exact .nil
  | @cons a b l r hab _ ih =>
    have hrest := ih fun a ha => hg a (by simp [ha])
    cases ha : p a with
    | false => simpa [ha, hq a b hab] using hrest
    | true =>
      rw [List.filter_cons_of_pos ha, List.filter_cons_of_pos (by rw [hq a b hab, ha])]
      exact .cons ((hg a (by simp) ha).trans hab) hrest

/-- If every step along a list gives a result and keeps `P`, which may speak of the elements that are done, then so
does the whole run. -/
theorem exists_foldlM_ok {f : σ → α → Except ε σ} {P : List α → σ → Prop} {l : List α}
    (step : ∀ done x todo s, l = done ++ x :: todo → P done s → ∃ s', f s x = .ok s' ∧ P (done ++ [x]) s')
    {s : σ} (start : P [] s) : ∃ s', l.foldlM f s = .ok s' ∧ P l s' := by
  suffices hrest : ∀ todo done s, l = done ++ todo → P done s → ∃ s', todo.foldlM f s = .ok s' ∧ P l s' from
    hrest l [] s rfl start
  intro todo
  induction todo with
  | nil =>
    intro done s hl hs
    rw [List.append_nil] at hl
    exact ⟨s, rfl, hl ▸ hs⟩
  | cons x todo ih =>
    intro done s hl hs
    obtain ⟨s₁, h₁, hs₁⟩ := step done x todo s hl hs
    obtain ⟨s₂, h₂, hs₂⟩ := ih (done ++ [x]) s₁ (by simpa using hl) hs₁
    exact ⟨s₂, by rw [List.foldlM_cons, h₁]; exact h₂, hs₂⟩

/-- What every step of a run along a list keeps, where it may speak of the elements that are done, holds in the end. -/
theorem foldlM_keeps {f : σ → α → Except ε σ} {P : List α → σ → Prop} {l : List α}
    (step : ∀ done x todo s s', l = done ++ x :: todo → P done s → f s x = .ok s' → P (done ++ [x]) s')
    {s s' : σ} (start : P [] s) (h : l.foldlM f s = .ok s') : P l s' := by
  suffices hrest : ∀ todo done s, l = done ++ todo → P done s → todo.foldlM f s = .ok s' → P l s' from
    hrest l [] s rfl start h
  intro todo
  induction todo with
  | nil =>
    intro done s hl hs hrun
    rw [List.append_nil] at hl
    exact hl ▸ Except.ok.inj hrun ▸ hs
  | cons x todo ih =>
    intro done s hl hs hrun
    rw [List.foldlM_cons] at hrun
    obtain ⟨s₁, h₁, hrest⟩ := bind_eq_ok.1 hrun
    exact ih (done ++ [x]) s₁ (by simpa using hl) (step done x todo s s₁ hl hs h₁) hrest

/-- Two runs along a list in lockstep: if each step ends both with the same fault or keeps them related, so does the
whole run. -/
theorem foldlM_lockstep {τ : Type} {f : σ → α → Except ε σ} {g : τ → α → Except ε τ} {R : List α → σ → τ → Prop}
    {l : List α} (step : ∀ done x todo s u, l = done ++ x :: todo → R done s u →
      (∃ e, f s x = .error e ∧ g u x = .error e) ∨ ∃ s' u', f s x = .ok s' ∧ g u x = .ok u' ∧ R (done ++ [x]) s' u')
    {s : σ} {u : τ} (start : R [] s u) : (∃ e, l.foldlM f s = .error e ∧ l.foldlM g u = .error e) ∨
      ∃ s' u', l.foldlM f s = .ok s' ∧ l.foldlM g u = .ok u' ∧ R l s' u' := by
  suffices hrest : ∀ todo done s u, l = done ++ todo → R done s u →
      (∃ e, todo.foldlM f s = .error e ∧ todo.foldlM g u = .error e) ∨
        ∃ s' u', todo.foldlM f s = .ok s' ∧ todo.foldlM g u = .ok u' ∧ R l s' u' from hrest l [] s u rfl start
  intro todo
  induction todo with
  | nil =>
    intro done s u hl hR
    rw [List.append_nil] at hl
    exact .inr ⟨s, u, rfl, rfl, hl ▸ hR⟩
  | cons x todo ih =>
    intro done s u hl hR
    rw [List.foldlM_cons, List.foldlM_cons]
    rcases step done x todo s u hl hR with ⟨e, hf, hg⟩ | ⟨s', u', hf, hg, hR'⟩
    · rw [hf, hg]
      exact .inl ⟨e, rfl, rfl⟩
    · rw [hf, hg]
      exact ih (done ++ [x]) s' u' (by simpa using hl) hR'

/-- If every step commutes with a change of the state, so does a run. -/
theorem foldlM_map {σ' : Type} {f : σ → α → Except ε σ} {f' : σ' → α → Except ε σ'} {g : σ → σ'}
    (h : ∀ s a, f' (g s) a = (f s a).map g) (l : List α) (s : σ) : l.foldlM f' (g s) = (l.foldlM f s).map g := by
  induction l generalizing s with
  | nil => rfl
  | cons a l ih =>
    rw [List.foldlM_cons, List.foldlM_cons, h]
    cases f s a with
    | error e => rfl
    | ok s' => exact ih s'

end MeaningForest

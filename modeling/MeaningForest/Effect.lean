import MeaningForest.Fault

/-!
# Operations that can fail

An operation reads and changes a state, and a fault may end it at any point; what it has changed before the fault stays
changed.  So that a failing operation changes nothing is not for granted: it is a property of operations
(`Effect.Atomic`), which those have that look before they change anything.

* `Effect.result`: the result with the state afterwards, or the fault.
* `Effect.after`: the state afterwards, also after a fault.
-/

namespace MeaningForest

/-- An operation on a state.  A fault ends it, and what was changed before stays changed. -/
abbrev Effect (σ : Type) := ExceptT Fault (StateM σ)

namespace Effect

variable {σ α β : Type}

/-- Reads something of the state. -/
def ask (f : σ → Except Fault α) : Effect σ α := ExceptT.mk fun s => (f s, s)

/-- Changes the state and answers something. -/
def update (f : σ → α × σ) : Effect σ α := ExceptT.mk fun s => (.ok (f s).1, (f s).2)

/-- Changes the state. -/
def change (f : σ → σ) : Effect σ Unit := update fun s => ((), f s)

/-- Does an operation: what comes of it, and the state afterwards. -/
def exec (x : Effect σ α) (s : σ) : Except Fault α × σ := x.run.run s

/-- The state after an operation, also after one that failed. -/
def after (x : Effect σ α) (s : σ) : σ := (x.exec s).2

/-- The result of an operation and the state afterwards. -/
def result (x : Effect σ α) (s : σ) : Except Fault (α × σ) :=
  match x.exec s with
  | (.ok a, s') => .ok (a, s')
  | (.error e, _) => .error e

/-- The state after an operation that succeeds. -/
def outcome (x : Effect σ α) (s : σ) : Except Fault σ := (x.result s).map Prod.snd

/-- An operation that fails changes nothing. -/
def Atomic (x : Effect σ α) : Prop := ∀ s e s', x.exec s = (.error e, s') → s' = s

variable {s s' : σ} {x : Effect σ α}

@[simp] theorem exec_ask (f : σ → Except Fault α) (s : σ) : (ask f).exec s = (f s, s) := rfl

/-- What the first part did is there for the second part, and stays if there is no second part. -/
theorem exec_bind (x : Effect σ α) (f : α → Effect σ β) (s : σ) : (x >>= f).exec s =
    match x.exec s with
    | (.ok a, s') => (f a).exec s'
    | (.error e, s') => (.error e, s') := by
  change (ExceptT.bindCont f (x.exec s).1).run (x.exec s).2 = _
  obtain ⟨e | a, s'⟩ := x.exec s <;> rfl

/-! ### Results -/

@[simp] theorem result_ask (f : σ → Except Fault α) (s : σ) : (ask f).result s = (f s).map (·, s) := by
  rw [result, exec_ask]
  cases f s <;> rfl

@[simp] theorem result_update (f : σ → α × σ) (s : σ) : (update f).result s = .ok (f s) := rfl

@[simp] theorem result_change (f : σ → σ) (s : σ) : (change f).result s = .ok ((), f s) := rfl

@[simp] theorem result_bind (x : Effect σ α) (f : α → Effect σ β) (s : σ) :
    (x >>= f).result s = (x.result s).bind fun r => (f r.1).result r.2 := by
  rw [result, result, exec_bind]
  obtain ⟨e | a, s'⟩ := x.exec s <;> rfl

theorem result_eq_ok {a : α} : x.result s = .ok (a, s') ↔ x.exec s = (.ok a, s') := by
  rw [result]
  obtain ⟨e | a', s''⟩ := x.exec s <;> simp

theorem result_eq_error {e : Fault} : x.result s = .error e ↔ x.exec s = (.error e, x.after s) := by
  rw [result, after]
  obtain ⟨e' | a, s''⟩ := x.exec s <;> simp

theorem after_of_result {a : α} (h : x.result s = .ok (a, s')) : x.after s = s' := by
  rw [after, result_eq_ok.1 h]

theorem outcome_eq_error {e : Fault} : x.outcome s = .error e ↔ x.result s = .error e := by
  rw [outcome]
  cases x.result s <;> simp [Except.map]

theorem after_of_outcome (h : x.outcome s = .ok s') : x.after s = s' := by
  rw [outcome] at h
  cases hr : x.result s with
  | error e =>
    rw [hr] at h
    cases h
  | ok r =>
    rw [hr] at h
    exact (after_of_result hr).trans (Except.ok.inj h)

/-! ### Operations that look first -/

theorem Atomic.after_of_result (hx : Atomic x) {e : Fault} (h : x.result s = .error e) : x.after s = s :=
  hx s e _ (result_eq_error.1 h)

theorem atomic_update (f : σ → α × σ) : Atomic (update f) := nofun

theorem atomic_ask (f : σ → Except Fault α) : Atomic (ask f) := by
  intro s e s' h
  exact (congrArg Prod.snd h).symm

/-- To look first does no harm. -/
theorem Atomic.ask_bind {f : σ → Except Fault α} {g : α → Effect σ β} (hg : ∀ a, Atomic (g a)) :
    Atomic (ask f >>= g) := by
  intro s e s' h
  rw [exec_bind, exec_ask] at h
  cases hf : f s with
  | error e' =>
    rw [hf] at h
    exact (congrArg Prod.snd h).symm
  | ok a =>
    rw [hf] at h
    exact hg a s e s' h

/-- After the last part that can fail anything may be done. -/
theorem Atomic.bind {f : α → Effect σ β} (hx : Atomic x) (hf : ∀ a s e, (f a).result s ≠ .error e) :
    Atomic (x >>= f) := by
  intro s e s' h
  rw [exec_bind] at h
  cases hr : x.exec s with
  | mk r s'' =>
    rw [hr] at h
    cases r with
    | error e' =>
      obtain rfl : s'' = s' := congrArg Prod.snd h
      exact hx s e' s'' hr
    | ok a =>
      have hfail : (f a).exec s'' = (.error e, s') := h
      exact absurd (result_eq_error.2 (by rw [after, hfail])) (hf a s'' e)

end Effect

end MeaningForest

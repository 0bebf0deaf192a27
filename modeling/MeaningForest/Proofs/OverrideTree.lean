import MeaningForest.Symbol.OverrideTree
import Mathlib.Data.List.Infix

/-!
# Override trees as maps from paths

An override tree maps paths to code: `codeAt` is the code that is held at the end of a path.  Registering changes the
code of one path (`codeAt_register`), and a path resolves to the code at the longest of its beginnings that holds some
(`resolve_eq_getLast?`).
-/

namespace MeaningForest.OverrideTree

variable {κ γ : Type} [DecidableEq κ]

/-- The code at the end of a path, if there is a node with code. -/
def codeAt (t : OverrideTree κ γ) : List κ → Option γ
  | [] => none
  | k :: path =>
    match t.get? k with
    | none => none
    | some (code, below) => if path.isEmpty then code else below.codeAt path

@[simp] theorem codeAt_empty (t : OverrideTree κ γ) : t.codeAt [] = none := rfl

@[simp] theorem get?_nil (k : κ) : (nil : OverrideTree κ γ).get? k = none := rfl

theorem get?_node (key k : κ) (code : Option γ) (below rest : OverrideTree κ γ) :
    (node key code below rest).get? k = if key = k then some (code, below) else rest.get? k := rfl

theorem codeAt_of_get?_eq_none {t : OverrideTree κ γ} {k : κ} (h : t.get? k = none) (path : List κ) :
    t.codeAt (k :: path) = none := by
  rw [codeAt, h]

theorem codeAt_of_get? {t : OverrideTree κ γ} {k : κ} {code : Option γ} {below : OverrideTree κ γ}
    (h : t.get? k = some (code, below)) (path : List κ) :
    t.codeAt (k :: path) = if path.isEmpty then code else below.codeAt path := by
  rw [codeAt, h]

theorem codeAt_congr {t u : OverrideTree κ γ} {k : κ} (h : t.get? k = u.get? k) (path : List κ) :
    t.codeAt (k :: path) = u.codeAt (k :: path) := by
  rw [codeAt, codeAt, h]

@[simp] theorem codeAt_nil (path : List κ) : (nil : OverrideTree κ γ).codeAt path = none := by
  cases path with
  | nil => rfl
  | cons k path => exact codeAt_of_get?_eq_none rfl path

/-! ### Registering -/

/-- The tree below a node at the top, if there is one. -/
def under (t : OverrideTree κ γ) (k : κ) : OverrideTree κ γ := ((t.get? k).map Prod.snd).getD nil

theorem get?_register_ne {t : OverrideTree κ γ} (code : γ) {j k : κ} (path : List κ) (h : k ≠ j) :
    (t.register code k path).get? j = t.get? j := by
  induction t with
  | nil => cases path <;> simp [register, chain, get?_node, h]
  | node key held below rest _ ihr =>
    rw [register.eq_def]
    by_cases hk : key = k
    · subst hk
      cases path <;> simp [get?_node, h]
    · simp [hk, get?_node, ihr]

theorem get?_register_end (t : OverrideTree κ γ) (code : γ) (k : κ) :
    (t.register code k []).get? k = some (some code, t.under k) := by
  induction t with
  | nil => simp [register, chain, get?_node, under]
  | node key held below rest _ ihr =>
    rw [register.eq_def]
    by_cases hk : key = k
    · simp [hk, get?_node, under]
    · simpa [hk, get?_node, under] using ihr

theorem get?_register_step (t : OverrideTree κ γ) (code : γ) (k j : κ) (path : List κ) :
    (t.register code k (j :: path)).get? k =
      some ((t.get? k).bind Prod.fst, (t.under k).register code j path) := by
  induction t with
  | nil => simp [register, chain, get?_node, under]
  | node key held below rest _ ihr =>
    rw [register.eq_def]
    by_cases hk : key = k
    · simp [hk, get?_node, under]
    · simpa [hk, get?_node, under] using ihr

theorem codeAt_under (t : OverrideTree κ γ) (k j : κ) (path : List κ) :
    (t.under k).codeAt (j :: path) = t.codeAt (k :: j :: path) := by
  cases h : t.get? k with
  | none => simp [under, h, codeAt_of_get?_eq_none h]
  | some c => simp [under, h, codeAt_of_get? h]

/-- Registering sets the code of its path and of no other. -/
theorem codeAt_register (t : OverrideTree κ γ) (code : γ) (k : κ) (path q : List κ) :
    (t.register code k path).codeAt q = if q = k :: path then some code else t.codeAt q := by
  induction path generalizing t k q with
  | nil =>
    cases q with
    | nil => simp
    | cons j q =>
      by_cases hj : k = j
      · subst hj
        rw [codeAt_of_get? (get?_register_end t code k)]
        cases q with
        | nil => simp
        | cons i q => simp [codeAt_under]
      · have hne : ¬ (j :: q = [k]) := by simp [Ne.symm hj]
        rw [codeAt_congr (get?_register_ne code [] hj), if_neg hne]
  | cons i path ih =>
    cases q with
    | nil => simp
    | cons j q =>
      by_cases hj : k = j
      · subst hj
        rw [codeAt_of_get? (get?_register_step t code k i path)]
        cases q with
        | nil =>
          cases h : t.get? k with
          | none => simp [codeAt_of_get?_eq_none h]
          | some c => simp [codeAt_of_get? h]
        | cons l q => simp [ih, codeAt_under]
      · have hne : ¬ (j :: q = k :: i :: path) := by simp [Ne.symm hj]
        rw [codeAt_congr (get?_register_ne code _ hj), if_neg hne]

/-! ### Resolving -/

/-- A path resolves to the code at the longest of its beginnings that has code. -/
theorem resolve_eq_getLast? (t : OverrideTree κ γ) (path : List κ) :
    t.resolve path = (path.inits.filterMap t.codeAt).getLast? := by
  induction path generalizing t with
  | nil => simp [resolve]
  | cons k path ih =>
    rw [List.inits_cons, List.filterMap_cons_none (codeAt_empty t), List.filterMap_map, resolve]
    cases h : t.get? k with
    | none =>
      have hnone : path.inits.filterMap (t.codeAt ∘ (k :: ·)) = [] := by
        rw [List.filterMap_eq_nil_iff]
        intro q _
        exact codeAt_of_get?_eq_none h q
      rw [hnone]
      rfl
    | some c =>
      obtain ⟨code, below⟩ := c
      -- the shortest beginning has the node's own code, the others lie below it
      have hsplit : path.inits.filterMap (t.codeAt ∘ (k :: ·)) =
          code.toList ++ path.inits.filterMap below.codeAt := by
        cases path with
        | nil => cases code <;> simp [codeAt_of_get? h]
        | cons j path =>
          rw [List.inits_cons, List.filterMap_cons, List.filterMap_cons_none (codeAt_empty below)]
          have hrest : (path.inits.map (j :: ·)).filterMap (t.codeAt ∘ (k :: ·)) =
              (path.inits.map (j :: ·)).filterMap below.codeAt := by
            apply List.filterMap_congr
            intro q hq
            obtain ⟨r, -, rfl⟩ := List.mem_map.1 hq
            simp [codeAt_of_get? h]
          rw [hrest]
          cases code <;> simp [codeAt_of_get? h]
      rw [hsplit, List.getLast?_append, ← ih below]
      cases code <;> rfl

end MeaningForest.OverrideTree

/-!
# Maps that remember the order of insertion

A map is the list of its entries in the order in which their keys were first set.  Setting a key again keeps its place.

* `OrderedMap.get?_set`: setting a key changes the value of this key only.
* `OrderedMap.keys_set`: a new key goes to the end, a known key stays where it is.
-/

namespace MeaningForest

/-- A map with its entries in order of insertion. -/
structure OrderedMap (κ β : Type) where
  entries : List (κ × β) := []
  deriving DecidableEq, Repr

namespace OrderedMap

/-- Where no key is repeated, every entry is found by its key. -/
theorem lookup_of_mem {κ β : Type} [BEq κ] [LawfulBEq κ] {es : List (κ × β)} (h : (es.map Prod.fst).Nodup) {e : κ × β}
    (he : e ∈ es) : es.lookup e.1 = some e.2 := by
  induction es with
  | nil => cases he
  | cons e' es ih =>
    rw [List.map_cons, List.nodup_cons] at h
    rcases List.mem_cons.1 he with rfl | he
    · exact List.lookup_cons_self
    · have hne : e.1 ≠ e'.1 := fun hk => h.1 (hk ▸ List.mem_map_of_mem he)
      rw [List.lookup_cons, beq_false_of_ne hne]
      exact ih h.2 he

variable {κ β : Type} [DecidableEq κ]

/-- The value of a key. -/
def get? (m : OrderedMap κ β) (k : κ) : Option β := m.entries.lookup k

/-- Whether a key is set. -/
def has (m : OrderedMap κ β) (k : κ) : Bool := (m.get? k).isSome

/-- The keys in order of insertion. -/
def keys (m : OrderedMap κ β) : List κ := m.entries.map Prod.fst

/-- The values in order of insertion of their keys. -/
def values (m : OrderedMap κ β) : List β := m.entries.map Prod.snd

/-- The number of entries. -/
def size (m : OrderedMap κ β) : Nat := m.entries.length

/-- The entries with the value of `k` replaced, or with `k` added at the end. -/
def setEntries (k : κ) (v : β) : List (κ × β) → List (κ × β)
  | [] => [(k, v)]
  | (k', v') :: rest => if k' = k then (k', v) :: rest else (k', v') :: setEntries k v rest

/-- Sets a key. -/
def set (m : OrderedMap κ β) (k : κ) (v : β) : OrderedMap κ β := ⟨setEntries k v m.entries⟩

private theorem lookup_cons_ite (j k : κ) (v : β) (es : List (κ × β)) :
    ((k, v) :: es).lookup j = if j = k then some v else es.lookup j := by
  by_cases h : j = k
  · simp [h]
  · have hj : (j == k) = false := by simpa using h
    simp [List.lookup_cons, hj, h]

theorem get?_set (m : OrderedMap κ β) (k j : κ) (v : β) :
    (m.set k v).get? j = if j = k then some v else m.get? j := by
  obtain ⟨es⟩ := m
  simp only [get?, set]
  induction es with
  | nil => simp [setEntries, lookup_cons_ite]
  | cons e es ih =>
    obtain ⟨k', v'⟩ := e
    rw [setEntries]
    split
    · rename_i hk
      subst hk
      simp only [lookup_cons_ite]
      split <;> simp_all
    · simp only [lookup_cons_ite, ih]
      split
      · split <;> simp_all
      · rfl

theorem keys_set (m : OrderedMap κ β) (k : κ) (v : β) :
    (m.set k v).keys = if k ∈ m.keys then m.keys else m.keys ++ [k] := by
  obtain ⟨es⟩ := m
  simp only [keys, set]
  induction es with
  | nil => simp [setEntries]
  | cons e es ih =>
    obtain ⟨k', v'⟩ := e
    rw [setEntries]
    by_cases hk : k' = k
    · simp [hk]
    · have hk' : k ≠ k' := Ne.symm hk
      by_cases hm : k ∈ es.map Prod.fst
      · simp [hk, hm, ih]
      · simp [hk, hk', hm, ih]

theorem isSome_get?_iff {m : OrderedMap κ β} {k : κ} : (m.get? k).isSome ↔ k ∈ m.keys := by
  obtain ⟨es⟩ := m
  simp only [get?, keys]
  induction es with
  | nil => simp
  | cons e es ih =>
    rw [List.lookup_cons, List.map_cons, List.mem_cons, ← ih]
    by_cases hk : k = e.1
    · simp [hk]
    · have hne : (k == e.1) = false := beq_false_of_ne hk
      simp [hne, hk]

end OrderedMap

end MeaningForest

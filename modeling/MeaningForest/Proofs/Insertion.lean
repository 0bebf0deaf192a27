import MeaningForest.Collections.OrderedMap
import MeaningForest.Proofs.OverrideTree
import Mathlib.Data.List.Nodup

/-!
# Maps in order of insertion

What a map tells after keys were set, one after the other, can be told from the list of what was set
(`OrderedMap.records_ofList`): the keys in the order in which each was set first, and for each the value that was set
for it last.  Setting a key again changes its value where it stands (`OrderedMap.entries_set_of_mem`).

A map can also be kept in two parts, its keys in a list and its values in a hash map (`KeyedTable`).  The parts stay in
step (`KeyedTable.inStep_ofList`), so that such a map shows the same (`KeyedTable.shows_records`).

The nodes at one level of a tree of overrides are such a map, too (`OverrideTree.level_register`).
-/

namespace MeaningForest

namespace OrderedMap

variable {κ β : Type} [DecidableEq κ] {m : OrderedMap κ β} {k : κ} {v : β}

/-- The entries are the keys with what is found for them. -/
theorem entries_eq_map_keys (h : m.keys.Nodup) :
    m.entries.map (fun e => (e.1, some e.2)) = m.keys.map fun k => (k, m.get? k) := by
  rw [keys, List.map_map]
  exact List.map_congr_left fun e he => congrArg (e.1, ·) (lookup_of_mem h he).symm

theorem values_eq_map_keys (h : m.keys.Nodup) : m.values.map some = m.keys.map m.get? := by
  rw [keys, values, List.map_map, List.map_map]
  exact List.map_congr_left fun e he => (lookup_of_mem h he).symm

/-- Setting a key again moves nothing. -/
theorem entries_set_of_mem (h : m.keys.Nodup) (hk : k ∈ m.keys) (v : β) :
    (m.set k v).entries = m.entries.map fun e => (e.1, if e.1 = k then v else e.2) := by
  obtain ⟨es⟩ := m
  simp only [keys, set] at h hk ⊢
  induction es with
  | nil => cases hk
  | cons e es ih =>
    rw [List.map_cons, List.nodup_cons] at h
    rw [setEntries, List.map_cons]
    by_cases he : e.1 = k
    · -- the key stands here, and so not in the rest
      have hrest : es.map (fun e => (e.1, if e.1 = k then v else e.2)) = es.map id :=
        List.map_congr_left fun e' he' => by
          have hne : e'.1 ≠ k := fun hk' => h.1 (he.trans hk'.symm ▸ List.mem_map_of_mem he')
          simp [hne]
      rw [if_pos he, if_pos he, hrest, List.map_id]
    · rw [if_neg he, if_neg he, ih h.2 ((List.mem_cons.1 hk).resolve_left (Ne.symm he))]

/-! ### What was set -/

/-- The map after keys were set, one after the other. -/
def ofList (sets : List (κ × β)) : OrderedMap κ β := sets.foldl (fun m e => m.set e.1 e.2) {}

theorem ofList_concat (sets : List (κ × β)) (e : κ × β) : ofList (sets ++ [e]) = (ofList sets).set e.1 e.2 := by
  rw [ofList, List.foldl_append]
  rfl

/-- The value that was set last for a key. -/
def lastSet (sets : List (κ × β)) (k : κ) : Option β := ((sets.filter (·.1 == k)).getLast?).map Prod.snd

theorem lastSet_concat (sets : List (κ × β)) (e : κ × β) (k : κ) :
    lastSet (sets ++ [e]) k = if k = e.1 then some e.2 else lastSet sets k := by
  rw [lastSet, List.filter_append]
  by_cases hk : k = e.1
  · simp [hk]
  · have hnone : [e].filter (·.1 == k) = [] := by simpa using Ne.symm hk
    rw [hnone, List.append_nil, if_neg hk, lastSet]

theorem get?_ofList (sets : List (κ × β)) (k : κ) : (ofList sets).get? k = lastSet sets k := by
  induction sets using List.reverseRecOn with
  | nil => rfl
  | append_singleton sets e ih => rw [ofList_concat, get?_set, lastSet_concat, ih]

theorem mem_keys_ofList {sets : List (κ × β)} {k : κ} : k ∈ (ofList sets).keys ↔ k ∈ sets.map Prod.fst := by
  rw [← isSome_get?_iff, get?_ofList, lastSet]
  simp

/-- The keys stand in the order in which they were set first. -/
theorem pairwise_keys_ofList (sets : List (κ × β)) : (ofList sets).keys.Pairwise fun j k =>
    (sets.map Prod.fst).idxOf j < (sets.map Prod.fst).idxOf k := by
  induction sets using List.reverseRecOn with
  | nil => exact .nil
  | append_singleton sets e ih =>
    -- keys that were set before are found first where they were found first before
    have hbefore : ∀ j ∈ (ofList sets).keys,
        ((sets ++ [e]).map Prod.fst).idxOf j = (sets.map Prod.fst).idxOf j := fun j hj => by
      rw [List.map_append, List.idxOf_append_of_mem (mem_keys_ofList.1 hj)]
    have hold : (ofList sets).keys.Pairwise fun j k =>
        ((sets ++ [e]).map Prod.fst).idxOf j < ((sets ++ [e]).map Prod.fst).idxOf k :=
      ih.imp_of_mem fun hj hk hlt => by rwa [hbefore _ hj, hbefore _ hk]
    rw [ofList_concat, keys_set]
    split
    · exact hold
    · rename_i hnew
      refine List.pairwise_append.2 ⟨hold, List.pairwise_singleton _ _, fun j hj k hk => ?_⟩
      obtain rfl := List.mem_singleton.1 hk
      rw [mem_keys_ofList] at hj hnew
      rw [List.map_append, List.idxOf_append_of_mem hj, List.idxOf_append_of_notMem hnew]
      exact (List.idxOf_lt_length_of_mem hj).trans_le (Nat.le_add_right _ _)

theorem nodup_keys_ofList (sets : List (κ × β)) : (ofList sets).keys.Nodup :=
  List.nodup_iff_pairwise_ne.2 ((pairwise_keys_ofList sets).imp fun hlt he => hlt.ne (by rw [he]))

/-- A map tells what was set: its keys in the order in which each was set first, and for each the value that was set
last.  All its views agree, and a key that is set again stays where it is. -/
structure Records (sets : List (κ × β)) (m : OrderedMap κ β) : Prop where
  nodup : m.keys.Nodup
  mem_keys : ∀ k, k ∈ m.keys ↔ k ∈ sets.map Prod.fst
  order : m.keys.Pairwise fun j k => (sets.map Prod.fst).idxOf j < (sets.map Prod.fst).idxOf k
  has_iff : ∀ k, m.has k = true ↔ k ∈ m.keys
  isSome_iff : ∀ k, (m.get? k).isSome ↔ k ∈ m.keys
  get?_eq : ∀ k, m.get? k = lastSet sets k
  size_eq : m.size = m.keys.length
  values_eq : m.values.map some = m.keys.map m.get?
  entries_eq : m.entries.map (fun e => (e.1, some e.2)) = m.keys.map fun k => (k, m.get? k)
  update : ∀ k ∈ m.keys, ∀ v, (m.set k v).keys = m.keys ∧
    (m.set k v).entries = m.entries.map fun e => (e.1, if e.1 = k then v else e.2)

theorem records_ofList (sets : List (κ × β)) : Records sets (ofList sets) where
  nodup := nodup_keys_ofList sets
  mem_keys := fun _ => mem_keys_ofList
  order := pairwise_keys_ofList sets
  has_iff := fun _ => isSome_get?_iff
  isSome_iff := fun _ => isSome_get?_iff
  get?_eq := get?_ofList sets
  size_eq := (List.length_map _).symm
  values_eq := values_eq_map_keys (nodup_keys_ofList sets)
  entries_eq := entries_eq_map_keys (nodup_keys_ofList sets)
  update := fun k hk v => ⟨(keys_set _ k v).trans (if_pos hk), entries_set_of_mem (nodup_keys_ofList sets) hk v⟩

/-- A key that is set again keeps its place, before one that was set in between. -/
example : (ofList [("y", 1), ("x", 2), ("y", 3)]).entries = [("y", 3), ("x", 2)] := by decide

end OrderedMap

/-! ### Maps in two parts -/

/-- The keys of a map in order of insertion, and its values in a hash map, which has no order. -/
structure KeyedTable (κ β : Type) [BEq κ] [Hashable κ] where
  keys : List κ := []
  table : Std.HashMap κ β := {}

namespace KeyedTable

variable {κ β : Type} [DecidableEq κ] [Hashable κ] {s : KeyedTable κ β} {m : OrderedMap κ β}

def get? (s : KeyedTable κ β) (k : κ) : Option β := s.table[k]?

def has (s : KeyedTable κ β) (k : κ) : Bool := s.table.contains k

def set (s : KeyedTable κ β) (k : κ) (v : β) : KeyedTable κ β where
  keys := if s.has k then s.keys else s.keys ++ [k]
  table := s.table.insert k v

def size (s : KeyedTable κ β) : Nat := s.keys.length

/-- The value of a key, or the default value. -/
def value [Inhabited β] (s : KeyedTable κ β) (k : κ) : β := s.table.getD k default

def values [Inhabited β] (s : KeyedTable κ β) : List β := s.keys.map s.value

def entries [Inhabited β] (s : KeyedTable κ β) : List (κ × β) := s.keys.map fun k => (k, s.value k)

/-- The map after keys were set, one after the other. -/
def ofList (sets : List (κ × β)) : KeyedTable κ β := sets.foldl (fun s e => s.set e.1 e.2) {}

/-- The list has the keys of a map, and the hash map has its values. -/
structure InStep (s : KeyedTable κ β) (m : OrderedMap κ β) : Prop where
  keys_eq : s.keys = m.keys
  get?_eq : ∀ k, s.get? k = m.get? k

/-- All that can be asked of the two parts is answered as by a map. -/
structure Shows [Inhabited β] (s : KeyedTable κ β) (m : OrderedMap κ β) : Prop extends InStep s m where
  has_eq : ∀ k, s.has k = m.has k
  size_eq : s.size = m.size
  values_eq : s.values = m.values
  entries_eq : s.entries = m.entries

theorem get?_set (s : KeyedTable κ β) (k j : κ) (v : β) :
    (s.set k v).get? j = if j = k then some v else s.get? j := by
  rw [get?, set, Std.HashMap.getElem?_insert]
  simp only [beq_iff_eq, eq_comm (a := k)]
  rfl

namespace InStep

theorem has_eq (h : InStep s m) (k : κ) : s.has k = m.has k := by
  rw [has, Std.HashMap.contains_eq_isSome_getElem?]
  exact congrArg Option.isSome (h.get?_eq k)

theorem set (h : InStep s m) (k : κ) (v : β) : InStep (s.set k v) (m.set k v) where
  keys_eq := by
    rw [OrderedMap.keys_set, ← h.keys_eq, KeyedTable.set, h.has_eq]
    exact if_congr (OrderedMap.isSome_get?_iff.trans (by rw [h.keys_eq])) rfl rfl
  get?_eq := fun j => by rw [get?_set, OrderedMap.get?_set, h.get?_eq]

theorem entries_eq [Inhabited β] (h : InStep s m) (hm : m.keys.Nodup) : s.entries = m.entries := by
  rw [entries, h.keys_eq, OrderedMap.keys, List.map_map]
  refine (List.map_congr_left fun e he => ?_).trans m.entries.map_id
  have hvalue : s.get? e.1 = some e.2 := (h.get?_eq e.1).trans (OrderedMap.lookup_of_mem hm he)
  rw [get?] at hvalue
  simp [value, Std.HashMap.getD_eq_getD_getElem?, hvalue]

theorem shows [Inhabited β] (h : InStep s m) (hm : m.keys.Nodup) : Shows s m where
  toInStep := h
  has_eq := h.has_eq
  size_eq := (congrArg List.length h.keys_eq).trans (List.length_map _)
  values_eq := by
    rw [OrderedMap.values, ← h.entries_eq hm, entries, List.map_map]
    rfl
  entries_eq := h.entries_eq hm

end InStep

theorem inStep_ofList (sets : List (κ × β)) : InStep (ofList sets) (OrderedMap.ofList sets) := by
  induction sets using List.reverseRecOn with
  | nil => exact ⟨rfl, fun _ => Std.HashMap.getElem?_empty⟩
  | append_singleton sets e ih =>
    rw [OrderedMap.ofList_concat, ofList, List.foldl_append]
    exact ih.set e.1 e.2

/-- A map in two parts shows what the map in one part shows, and this is told from what was set. -/
theorem shows_records [Inhabited β] (sets : List (κ × β)) :
    Shows (ofList sets) (OrderedMap.ofList sets) ∧ OrderedMap.Records sets (OrderedMap.ofList sets) :=
  ⟨(inStep_ofList sets).shows (OrderedMap.nodup_keys_ofList sets), OrderedMap.records_ofList sets⟩

end KeyedTable

namespace OverrideTree

variable {κ γ : Type} [DecidableEq κ]

/-- The nodes at the top of a tree. -/
def level (t : OverrideTree κ γ) : OrderedMap κ (Option γ × OverrideTree κ γ) := ⟨t.top⟩

theorem get?_level (t : OverrideTree κ γ) (k : κ) : t.level.get? k = t.get? k := by
  induction t with
  | nil => rfl
  | node key held below rest _ ih =>
    rw [get?_node, ← ih]
    simp only [level, top, OrderedMap.get?, List.lookup_cons]
    by_cases hk : key = k
    · simp [hk]
    · simp [hk, beq_false_of_ne (Ne.symm hk)]

/-- What a node at the top holds after code was registered on a path through it. -/
def grown (t : OverrideTree κ γ) (code : γ) (k : κ) : List κ → Option γ × OverrideTree κ γ
  | [] => (some code, t.under k)
  | j :: path => ((t.get? k).bind Prod.fst, (t.under k).register code j path)

/-- Registering sets the first node of the path. -/
theorem level_register (t : OverrideTree κ γ) (code : γ) (k : κ) (path : List κ) :
    (t.register code k path).level = t.level.set k (t.grown code k path) := by
  simp only [level, OrderedMap.set, OrderedMap.mk.injEq]
  induction t with
  | nil => cases path <;> rfl
  | node key held below rest _ ih =>
    rw [register.eq_def]
    by_cases hk : key = k
    · cases path <;> simp [top, OrderedMap.setEntries, hk, grown, under, get?_node]
    · have hgrown : (node key held below rest).grown code k path = rest.grown code k path := by
        cases path <;> simp [grown, under, get?_node, hk]
      simp [top, OrderedMap.setEntries, hk, hgrown, ih]

end OverrideTree

end MeaningForest

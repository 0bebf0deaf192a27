import MeaningForest.Object.Cell
import MeaningForest.Object.Store
import MeaningForest.Proofs.Handles
import MeaningForest.Proofs.Literals

/-!
# Objects at run time

A literal makes an object: a chain of layers in an arena, whose cells are copied with it or shared.  An expression for a
cell is followed from a handle step by step; a type assertion on the way fails if the object goes on differently.

* `Memory.denotes?_toCell`: the path to a cell leads to the cell of its name in the layer that the tags lead to.
* `Memory.Holds.call?_write`, `Memory.Holds.call?_read`: a write changes one place of an object and no other, and a read
  gives the content of its place, for copied and shared cells alike.
* `Code.Composite.exists_make?`: a literal makes an object whose places hold the values of its entries.
-/

namespace MeaningForest

open Code

/-! ### Layers -/

/-- An object: the cells of each layer by name, and the tag that leads to the next layer or ends the chain. -/
inductive Layers (β : Type) where
  | last (cells : List (Text × β)) (tag : Text)
  | next (cells : List (Text × β)) (tag : Text) (rest : Layers β)
  deriving DecidableEq, Repr

namespace Layers

variable {β : Type}

/-- The cells and the tag of the first layer. -/
def cells : Layers β → List (Text × β)
  | last cells _ => cells
  | next cells _ _ => cells

def tag : Layers β → Text
  | last _ tag => tag
  | next _ tag _ => tag

/-- The tags that lead from layer to layer. -/
def tags : Layers β → List Text
  | last _ _ => []
  | next _ tag rest => tag :: rest.tags

/-- The tag of the last layer. -/
def ends : Layers β → Text
  | last _ tag => tag
  | next _ _ rest => rest.ends

/-- The object without its first layers. -/
def below? : Layers β → Nat → Option (Layers β)
  | o, 0 => some o
  | next _ _ rest, k + 1 => rest.below? k
  | last _ _, _ + 1 => none

/-- The cell at a place: the depth of a layer and the name of a cell. -/
def cellAt (o : Layers β) (k : Nat) (name : Text) : Option β := (o.below? k).bind (·.cells.lookup name)

/-- Changes the cell of a name. -/
def changeCell (name : Text) (f : β → β) (cells : List (Text × β)) : List (Text × β) :=
  cells.map fun c => if c.1 = name then (c.1, f c.2) else c

/-- Changes the cell at a place. -/
def change (name : Text) (f : β → β) : Layers β → Nat → Layers β
  | last cells tag, 0 => last (changeCell name f cells) tag
  | next cells tag rest, 0 => next (changeCell name f cells) tag rest
  | next cells tag rest, k + 1 => next cells tag (rest.change name f k)
  | last cells tag, _ + 1 => last cells tag

@[simp] theorem cellAt_zero (o : Layers β) (name : Text) : o.cellAt 0 name = o.cells.lookup name := by
  cases o <;> rfl

@[simp] theorem cellAt_next (cells : List (Text × β)) (tag : Text) (rest : Layers β) (k : Nat) (name : Text) :
    (next cells tag rest).cellAt (k + 1) name = rest.cellAt k name := rfl

@[simp] theorem cellAt_last (cells : List (Text × β)) (tag : Text) (k : Nat) (name : Text) :
    (last cells tag).cellAt (k + 1) name = none := rfl

theorem lookup_changeCell (name : Text) (f : β → β) (cells : List (Text × β)) (n : Text) :
    (changeCell name f cells).lookup n = if n = name then (cells.lookup n).map f else cells.lookup n := by
  induction cells with
  | nil => simp [changeCell]
  | cons c cells ih =>
    obtain ⟨m, b⟩ := c
    rw [changeCell] at ih
    rw [changeCell, List.map_cons]
    by_cases hm : m = name
    · subst hm
      rw [if_pos rfl, List.lookup_cons, List.lookup_cons, ih]
      by_cases hn : n = m
      · simp [hn]
      · have hne : (n == m) = false := by simpa using hn
        simp [hn, hne]
    · rw [if_neg hm, List.lookup_cons, List.lookup_cons, ih]
      by_cases hn : n = m
      · simp [hn, hm]
      · have hne : (n == m) = false := by simpa using hn
        simp [hne]

theorem tags_change (name : Text) (f : β → β) (o : Layers β) (k : Nat) : (o.change name f k).tags = o.tags := by
  induction o generalizing k with
  | last cells tag => cases k <;> rfl
  | next cells tag rest ih =>
    cases k with
    | zero => rfl
    | succ k => exact congrArg (tag :: ·) (ih k)

theorem ends_change (name : Text) (f : β → β) (o : Layers β) (k : Nat) : (o.change name f k).ends = o.ends := by
  induction o generalizing k with
  | last cells tag => cases k <;> rfl
  | next cells tag rest ih =>
    cases k with
    | zero => rfl
    | succ k => exact ih k

/-- A change concerns one place. -/
theorem cellAt_change (name : Text) (f : β → β) (o : Layers β) (k j : Nat) (n : Text) :
    (o.change name f k).cellAt j n = if j = k ∧ n = name then (o.cellAt j n).map f else o.cellAt j n := by
  induction o generalizing k j with
  | last cells tag =>
    cases k with
    | zero => cases j <;> simp [change, Layers.cells, lookup_changeCell]
    | succ k => cases j <;> simp [change]
  | next cells tag rest ih =>
    cases k with
    | zero => cases j <;> simp [change, Layers.cells, lookup_changeCell]
    | succ k =>
      cases j with
      | zero => simp [change, Layers.cells]
      | succ j => simpa [change] using ih k j

/-- Along the tags of an object there is a layer. -/
theorem exists_below? {o : Layers β} {k : Nat} (h : k ≤ o.tags.length) : ∃ o', o.below? k = some o' := by
  induction o generalizing k with
  | last cells tag =>
    obtain rfl : k = 0 := by simpa [tags] using h
    exact ⟨_, rfl⟩
  | next cells tag rest ih =>
    cases k with
    | zero => exact ⟨_, rfl⟩
    | succ k => exact ih (by simpa [tags] using h)

end Layers

/-! ### Memory -/

/-- A cell of an object: one that is copied with it, or the identity of a shared one. -/
inductive FieldCell (α : Type) where
  | value (c : ValueCell α)
  | shared (c : SharedCell)
  deriving DecidableEq, Repr

namespace FieldCell

variable {α : Type}

def isShared : FieldCell α → Bool
  | value _ => false
  | shared _ => true

/-- The content of a cell, given those of the shared ones. -/
def content? (s : SharedCells α) : FieldCell α → Option α
  | value c => some c.content
  | shared c => s.borrow? c

end FieldCell

/-- The objects and the shared cells of a running program. -/
structure Memory (α : Type) where
  objects : ObjectStore (Layers (FieldCell α)) := {}
  shared : SharedCells α := {}
  deriving DecidableEq, Repr

/-- What an expression denotes. -/
inductive Denoted (α : Type) where
  | handle (h : HandleValue (Option ObjectHandle))
  /-- The reference in a root handle. -/
  | reference (r : Option ObjectHandle)
  /-- A layer of an object, with those below it, and how many are above it. -/
  | layer (r : Option ObjectHandle) (depth : Nat) (o : Layers (FieldCell α))
  /-- The tag of this layer. -/
  | variant (r : Option ObjectHandle) (depth : Nat) (o : Layers (FieldCell α))
  /-- A tag of the type that was asserted, which leads to this layer. -/
  | tag (r : Option ObjectHandle) (depth : Nat) (next : Layers (FieldCell α))
  | cell (r : Option ObjectHandle) (depth : Nat) (name : Text) (c : FieldCell α)
  deriving DecidableEq, Repr

namespace Memory

variable {α : Type} (m : Memory α)

/-- One step of an expression. -/
def step? : Denoted α → Step → Option (Denoted α)
  | .handle (.sub _ h), .select name => if h.meaning = name then some (.handle h) else none
  | .handle (.root _ r), .select name => if name = "root" then some (.reference r) else none
  | .reference r, .call method argument =>
    if method = "Get" ∧ argument = [] then (m.objects.get r).toOption.map (.layer r 0) else none
  | .layer r k o, .select name =>
    if name = "variant" then some (.variant r k o) else (o.cells.lookup name).map (.cell r k name)
  | .variant r k (.next _ tag rest), .assert type => if tag = type then some (.tag r (k + 1) rest) else none
  | .tag r k o, .select name => if name = "next" then some (.layer r k o) else none
  | _, _ => none

/-- The steps of an expression one after the other. -/
def denotes? (d : Denoted α) (steps : List Step) : Option (Denoted α) := steps.foldlM m.step? d

/-- Calls a method of a cell: what it gives back, and the memory after it.  Cells that are copied are read by `Get` and
written by `Set`, shared ones are read by `Borrow` and written by `Replace`, which gives back the old content. -/
def call? : Denoted α → Text → Option α → Option (Option α × Memory α)
  | .cell _ _ _ (.value c), method, none => if method = "Get" then some (some c.content, m) else none
  | .cell r k name (.value _), method, some v =>
    if method = "Set" then
      (m.objects.modify r fun o => o.change name (fun _ => .value ⟨v⟩) k).toOption.map fun objects =>
        (none, { m with objects })
    else none
  | .cell _ _ _ (.shared c), method, none =>
    if method = "Borrow" then (m.shared.borrow? c).map fun v => (some v, m) else none
  | .cell _ _ _ (.shared c), method, some v =>
    if method = "Replace" then
      (m.shared.replace c v).1.map fun old => (some old, { m with shared := (m.shared.replace c v).2 })
    else none
  | _, _, _ => none

/-- The names of the parameters of an accessor, which hide types of these names: a setter has a parameter `v`. -/
def parameters (v : Option α) : List Text := if v.isSome then [receiverName, "v"] else [receiverName]

/-- The body of an accessor, which ends with the call of a method of a cell, is run on a handle, that of a setter with a
value for its parameter. -/
def run? (self : HandleValue (Option ObjectHandle)) (v : Option α) (x : Access) : Option (Option α × Memory α) :=
  match x.steps.getLast? with
  | some (.call method argument) =>
    if x.var = receiverName ∧ argument = (if v.isSome then Text.ofString "v" else []) ∧
        ∀ type ∈ x.steps.filterMap Step.type?, (parameters v).contains type = false then
      (m.denotes? (.handle self) x.steps.dropLast).bind fun d => m.call? d method v
    else none
  | _ => none

variable {m}

theorem denotes?_append (d : Denoted α) (steps rest : List Step) :
    m.denotes? d (steps ++ rest) = (m.denotes? d steps).bind (m.denotes? · rest) := List.foldlM_append

theorem denotes?_cons (d : Denoted α) (s : Step) (rest : List Step) :
    m.denotes? d (s :: rest) = (m.step? d s).bind (m.denotes? · rest) := List.foldlM_cons

theorem denotes?_selectors (h : HandleValue (Option ObjectHandle)) (selectors : List Text) {inner}
    (hselect : h.select selectors = some inner) :
    m.denotes? (.handle h) (selectors.map .select) = some (.handle inner) := by
  induction selectors generalizing h with
  | nil =>
    obtain rfl := Option.some.inj hselect
    rfl
  | cons s selectors ih =>
    cases h with
    | root meaning r => cases hselect
    | sub meaning h =>
      rw [HandleValue.select] at hselect
      split at hselect
      · rename_i hs
        rw [List.map_cons, denotes?_cons, step?, if_pos hs]
        exact ih h hselect
      · cases hselect

/-- The expression for the root layer leads to the object of a handle. -/
theorem denotes?_toRoot {h : HandleValue (Option ObjectHandle)} {selectors : List Text} {root : Text} {r o}
    (hselect : h.select selectors = some (.root root r)) (hget : m.objects.get r = .ok o) :
    m.denotes? (.handle h) (Step.toRoot selectors) = some (.layer r 0 o) := by
  rw [Step.toRoot, denotes?_append, denotes?_selectors h selectors hselect, Option.bind_some]
  simp [denotes?, step?, hget, Except.toOption]

/-- Along the tags of an object no assertion fails. -/
theorem denotes?_alongTags {o : Layers (FieldCell α)} {tags : List Text} (h : tags <+: o.tags)
    (r : Option ObjectHandle) (k : Nat) :
    m.denotes? (.layer r k o) (Step.alongTags tags) = (o.below? tags.length).map (.layer r (k + tags.length)) := by
  induction tags generalizing o k with
  | nil => cases o <;> rfl
  | cons t tags ih =>
    cases o with
    | last cells tag => exact absurd h.length_le (by simp [Layers.tags])
    | next cells tag rest =>
      obtain ⟨rfl, hrest⟩ := List.cons_prefix_cons.1 h
      have hsteps : Step.alongTags (t :: tags) =
          .select "variant" :: .assert t :: .select "next" :: Step.alongTags tags := rfl
      have hdepth : k + (tags.length + 1) = k + 1 + tags.length := by omega
      rw [hsteps, denotes?_cons, step?, if_pos rfl, Option.bind_some, denotes?_cons, step?, if_pos rfl,
        Option.bind_some,
        denotes?_cons, step?, if_pos rfl, Option.bind_some, ih hrest, List.length_cons, Layers.below?, hdepth]

/-- The way to a layer along the tags of an object. -/
theorem denotes?_toLayer {h : HandleValue (Option ObjectHandle)} {selectors tags : List Text} {root : Text} {r o}
    (hselect : h.select selectors = some (.root root r)) (hget : m.objects.get r = .ok o) (htags : tags <+: o.tags) :
    m.denotes? (.handle h) (Step.toRoot selectors ++ Step.alongTags tags) =
      (o.below? tags.length).map (.layer r tags.length) := by
  rw [denotes?_append, denotes?_toRoot hselect hget, Option.bind_some, denotes?_alongTags htags, Nat.zero_add]

theorem denotes?_toTag {h : HandleValue (Option ObjectHandle)} {selectors tags : List Text} {root : Text} {r o}
    (hselect : h.select selectors = some (.root root r)) (hget : m.objects.get r = .ok o) (htags : tags <+: o.tags) :
    m.denotes? (.handle h) (Step.toCell selectors tags "variant") =
      (o.below? tags.length).map (.variant r tags.length) := by
  obtain ⟨o', hbelow⟩ := Layers.exists_below? htags.length_le
  rw [Step.toCell, denotes?_append, denotes?_toLayer hselect hget htags, hbelow, Option.map_some, Option.bind_some,
    denotes?_cons, step?, if_pos rfl]
  rfl

/-- The path to a cell leads to the cell of its name in the layer that the tags lead to. -/
theorem denotes?_toCell {h : HandleValue (Option ObjectHandle)} {selectors tags : List Text} {root name : Text} {r o}
    (hselect : h.select selectors = some (.root root r)) (hget : m.objects.get r = .ok o) (htags : tags <+: o.tags)
    (hname : name ≠ Text.ofString "variant") {c : FieldCell α} (hcell : o.cellAt tags.length name = some c) :
    m.denotes? (.handle h) (Step.toCell selectors tags name) = some (.cell r tags.length name c) := by
  obtain ⟨o', hbelow⟩ := Layers.exists_below? htags.length_le
  have hlookup : o'.cells.lookup name = some c := by simpa [Layers.cellAt, hbelow] using hcell
  rw [Step.toCell, denotes?_append, denotes?_toLayer hselect hget htags, hbelow, Option.map_some, Option.bind_some,
    denotes?_cons, step?, if_neg hname, hlookup]
  rfl

/-- An accessor calls a method of the cell that its path leads to. -/
theorem type?_toCell (selectors tags : List Text) (name : Text) :
    (Step.toCell selectors tags name).filterMap Step.type? = tags := by
  have hselectors : (selectors.map Step.select).filterMap Step.type? = [] := by
    rw [List.filterMap_map]
    exact List.filterMap_eq_nil_iff.2 fun _ _ => rfl
  have htags : (Step.alongTags tags).filterMap Step.type? = tags := by
    induction tags with
    | nil => rfl
    | cons tag tags ih => exact congrArg (tag :: ·) ih
  rw [Step.toCell, Step.toRoot, List.filterMap_append, List.filterMap_append, List.filterMap_append, hselectors, htags]
  exact List.append_nil _

theorem run?_toCell {h : HandleValue (Option ObjectHandle)} {selectors tags : List Text} {root name : Text} {r o}
    (hselect : h.select selectors = some (.root root r)) (hget : m.objects.get r = .ok o) (htags : tags <+: o.tags)
    (hname : name ≠ Text.ofString "variant") {c : FieldCell α} (hcell : o.cellAt tags.length name = some c)
    (method : Text) (v : Option α)
    (hhidden : ∀ tag ∈ tags, tag ∉ parameters v) : m.run? h v ⟨receiverName, Step.toCell selectors tags name ++
      [.call method (if v.isSome then Text.ofString "v" else [])]⟩ = m.call? (.cell r tags.length name c) method v := by
  have htypes : (Step.toCell selectors tags name ++
      [Step.call method (if v.isSome then Text.ofString "v" else [])]).filterMap Step.type? = tags := by
    rw [List.filterMap_append, type?_toCell]
    exact List.append_nil _
  rw [run?, List.getLast?_concat]
  dsimp only
  have hplain : ∀ tag ∈ tags, (parameters v).contains tag = false := fun tag htag => by simpa using hhidden tag htag
  rw [htypes, if_pos ⟨rfl, rfl, hplain⟩, List.dropLast_concat, denotes?_toCell hselect hget htags hname hcell,
    Option.bind_some]

/-! ### Places of an object -/

/-- The words for reading and writing the cell of a field. -/
def readWord (f : FieldSlot) : Text := if f.isRef then "Borrow" else "Get"
def writeWord (f : FieldSlot) : Text := if f.isRef then "Replace" else "Set"

/-- An object has cells at the places of some fields, shared or not as the fields are, and no two places share one. -/
structure Holds (m : Memory α) (r : Option ObjectHandle) (o : Layers (FieldCell α)) (places : List (Nat × FieldSlot)) :
    Prop where
  object : m.objects.get r = .ok o
  cells : ∀ s ∈ places, ∃ c, o.cellAt s.1 s.2.name = some c ∧ c.isShared = s.2.isRef ∧ (c.content? m.shared).isSome
  apart : ∀ s ∈ places, ∀ t ∈ places, ∀ c, o.cellAt s.1 s.2.name = some (.shared c) →
    o.cellAt t.1 t.2.name = some (.shared c) → s.1 = t.1 ∧ s.2.name = t.2.name

/-- What an object has at a place. -/
def contentAt (m : Memory α) (o : Layers (FieldCell α)) (s : Nat × FieldSlot) : Option α :=
  (o.cellAt s.1 s.2.name).bind (·.content? m.shared)

variable {r : Option ObjectHandle} {o : Layers (FieldCell α)} {places : List (Nat × FieldSlot)}

theorem Holds.call?_read (h : m.Holds r o places) {s : Nat × FieldSlot} (hs : s ∈ places) :
    ∃ c v, o.cellAt s.1 s.2.name = some c ∧ m.contentAt o s = some v ∧
      m.call? (.cell r s.1 s.2.name c) (readWord s.2) none = some (some v, m) := by
  obtain ⟨c, hcell, hshared, hcontent⟩ := h.cells s hs
  obtain ⟨v, hv⟩ := Option.isSome_iff_exists.1 hcontent
  refine ⟨c, v, hcell, by rw [contentAt, hcell, Option.bind_some, hv], ?_⟩
  cases c with
  | value c =>
    obtain rfl := Option.some.inj hv
    have hword : readWord s.2 = Text.ofString "Get" := by simp [readWord, ← hshared, FieldCell.isShared]
    rw [call?, hword, if_pos rfl]
  | shared c =>
    have hword : readWord s.2 = Text.ofString "Borrow" := by simp [readWord, ← hshared, FieldCell.isShared]
    have hborrow : m.shared.borrow? c = some v := hv
    rw [call?, hword, if_pos rfl, hborrow, Option.map_some]

/-- Changing the content of the object of a handle changes what is read of it. -/
theorem get_modify {objects : ObjectStore (Layers (FieldCell α))} {r : Option ObjectHandle} {o : Layers (FieldCell α)}
    (h : objects.get r = .ok o) (f : Layers (FieldCell α) → Layers (FieldCell α)) :
    ∃ objects', objects.modify r f = .ok objects' ∧ objects'.get r = .ok (f o) := by
  obtain ⟨object, hfind, hobject⟩ := ObjectStore.read_eq_ok.1 h
  refine ⟨_, ObjectStore.write_eq_ok.2 ⟨object, hfind, rfl⟩, ?_⟩
  obtain ⟨arena, rfl, hopen, hpresent⟩ := ObjectStore.find_eq_ok.1 hfind
  refine ObjectStore.read_eq_ok.2 ⟨object, ObjectStore.find_eq_ok.2 ⟨arena, rfl, hopen, ?_⟩, ?_⟩
  · simpa [ObjectStore.isPresent] using hpresent
  · simp [hobject]

/-- The content of one shared cell is replaced, and the others stay. -/
theorem borrow?_replace {s : SharedCells α} {c d : SharedCell} {v : α} (h : (s.borrow? c).isSome) :
    (s.replace c v).2.borrow? d = if d = c then some v else s.borrow? d := by
  by_cases hd : d = c
  · subst hd
    rw [if_pos rfl]
    exact (s.borrow_replace d v h).1
  · have hne : c.number ≠ d.number := fun heq => hd (by cases c; cases d; exact congrArg SharedCell.mk heq.symm)
    rw [if_neg hd]
    simp [SharedCells.replace, SharedCells.update, SharedCells.borrow?, hne]

/-- A write changes the content of one place, and no other. -/
theorem Holds.call?_write (h : m.Holds r o places) {s : Nat × FieldSlot} (hs : s ∈ places) (v : α) :
    ∃ c result m' o', o.cellAt s.1 s.2.name = some c ∧
      m.call? (.cell r s.1 s.2.name c) (writeWord s.2) (some v) = some (result, m') ∧ m'.Holds r o' places ∧
      o'.tags = o.tags ∧ o'.ends = o.ends ∧ ∀ t ∈ places, m'.contentAt o' t =
        if t.1 = s.1 ∧ t.2.name = s.2.name then some v else m.contentAt o t := by
  obtain ⟨c, hcell, hshared, hcontent⟩ := h.cells s hs
  cases c with
  | value c =>
    have hword : writeWord s.2 = Text.ofString "Set" := by simp [writeWord, ← hshared, FieldCell.isShared]
    obtain ⟨objects, hmodify, hget⟩ := get_modify h.object fun o => o.change s.2.name (fun _ => .value ⟨v⟩) s.1
    have hchanged : ∀ t : Nat × FieldSlot, (o.change s.2.name (fun _ => .value ⟨v⟩) s.1).cellAt t.1 t.2.name =
        if t.1 = s.1 ∧ t.2.name = s.2.name then some (.value ⟨v⟩) else o.cellAt t.1 t.2.name := by
      intro t
      rw [Layers.cellAt_change]
      split
      · rename_i hplace
        rw [hplace.1, hplace.2, hcell]
        rfl
      · rfl
    -- a place with a shared cell is not the one that was changed
    have hkept : ∀ (t : Nat × FieldSlot) c, (o.change s.2.name (fun _ => .value ⟨v⟩) s.1).cellAt t.1 t.2.name =
        some (.shared c) → o.cellAt t.1 t.2.name = some (.shared c) := by
      intro t c ht
      rw [hchanged] at ht
      split at ht
      · cases ht
      · exact ht
    refine ⟨_, none, { m with objects }, o.change s.2.name (fun _ => .value ⟨v⟩) s.1, hcell, ?_, ⟨hget, ?_, ?_⟩,
      Layers.tags_change .., Layers.ends_change .., ?_⟩
    · rw [call?, hword, if_pos rfl, hmodify]
      rfl
    · intro t ht
      obtain ⟨d, hd, hdshared, hdcontent⟩ := h.cells t ht
      rw [hchanged]
      split
      · rename_i hplace
        rw [hplace.1, hplace.2, hcell] at hd
        obtain rfl := Option.some.inj hd
        exact ⟨_, rfl, hdshared, rfl⟩
      · exact ⟨d, hd, hdshared, by cases d <;> exact hdcontent⟩
    · exact fun t ht u hu c htc huc => h.apart t ht u hu c (hkept t c htc) (hkept u c huc)
    · intro t ht
      rw [contentAt, hchanged]
      split <;> rfl
  | shared c =>
    have hword : writeWord s.2 = Text.ofString "Replace" := by simp [writeWord, ← hshared, FieldCell.isShared]
    have hborrow : (m.shared.borrow? c).isSome := hcontent
    obtain ⟨old, hold⟩ := Option.isSome_iff_exists.1 hborrow
    have hresult : (m.shared.replace c v).1 = some old := hold
    refine ⟨_, some old, { m with shared := (m.shared.replace c v).2 }, o, hcell, ?_, ⟨h.object, ?_, h.apart⟩, rfl, rfl,
      ?_⟩
    · rw [call?, hword, if_pos rfl, hresult, Option.map_some]
    · intro t ht
      obtain ⟨d, hd, hdshared, hdcontent⟩ := h.cells t ht
      refine ⟨d, hd, hdshared, ?_⟩
      cases d with
      | value d => rfl
      | shared d =>
        rw [FieldCell.content?, borrow?_replace hborrow]
        split
        · rfl
        · exact hdcontent
    · intro t ht
      rw [contentAt, contentAt]
      by_cases hplace : t.1 = s.1 ∧ t.2.name = s.2.name
      · rw [if_pos hplace, hplace.1, hplace.2, hcell, Option.bind_some, FieldCell.content?, borrow?_replace hborrow,
          if_pos rfl]
      · rw [if_neg hplace]
        cases hd : o.cellAt t.1 t.2.name with
        | none => rfl
        | some d =>
          cases d with
          | value d => rfl
          | shared d =>
            have hne : d ≠ c := by
              rintro rfl
              exact hplace (h.apart t ht s hs d hd hcell)
            rw [Option.bind_some, Option.bind_some, FieldCell.content?, borrow?_replace hborrow, if_neg hne]
            rfl

end Memory

/-! ### New objects -/

variable {α : Type}

/-- A cell that was made between two states of the shared cells and has a value. -/
structure FieldCell.Made (s s' : SharedCells α) (v : α) (c : FieldCell α) : Prop where
  content : c.content? s' = some v
  fresh : ∀ d, c = .shared d → s.contents.length ≤ d.number

theorem FieldCell.content?_mono {s s' : SharedCells α} (h : s.contents <+: s'.contents) {c : FieldCell α} {v : α}
    (hc : c.content? s = some v) : c.content? s' = some v := by
  cases c with
  | value c => exact hc
  | shared c =>
    obtain ⟨t, ht⟩ := h
    obtain ⟨hlt, -⟩ := List.getElem?_eq_some_iff.1 hc
    exact (congrArg (·[c.number]?) ht.symm).trans ((List.getElem?_append_left hlt).trans hc)

theorem FieldCell.Made.mono {s₀ s₁ s₂ s₃ : SharedCells α} {v : α} {c : FieldCell α} (h : c.Made s₁ s₂ v)
    (hbefore : s₀.contents <+: s₁.contents) (hafter : s₂.contents <+: s₃.contents) : c.Made s₀ s₃ v :=
  ⟨content?_mono hafter h.content, fun d hd => hbefore.length_le.trans (h.fresh d hd)⟩

/-- Cells that were made one after the other are not the same. -/
theorem FieldCell.Made.apart {s₀ s₁ s₂ : SharedCells α} {v w : α} {c d : FieldCell α} (hc : c.Made s₀ s₁ v)
    (hd : d.Made s₁ s₂ w) {n : SharedCell} (hcn : c = .shared n) : d ≠ .shared n := by
  intro hdn
  have hin : s₁.contents[n.number]? = some v := by simpa [hcn, content?, SharedCells.borrow?] using hc.content
  obtain ⟨hlt, -⟩ := List.getElem?_eq_some_iff.1 hin
  exact absurd (hd.fresh n hdn) (by omega)

/-- New cells at places: each has its value, is shared or not as its field is, and no two places share one. -/
structure Filled (s s' : SharedCells α) (value : Nat → FieldSlot → α) (cell : Nat → Text → Option (FieldCell α))
    (places : List (Nat × FieldSlot)) : Prop where
  grown : s.contents <+: s'.contents
  cells : ∀ p ∈ places, ∃ c, cell p.1 p.2.name = some c ∧ c.isShared = p.2.isRef ∧ c.Made s s' (value p.1 p.2)
  apart : ∀ p ∈ places, ∀ q ∈ places, ∀ d, cell p.1 p.2.name = some (.shared d) →
    cell q.1 q.2.name = some (.shared d) → p.1 = q.1 ∧ p.2.name = q.2.name

namespace Filled

variable {s s₁ s₂ : SharedCells α} {value : Nat → FieldSlot → α} {cell : Nat → Text → Option (FieldCell α)}
  {places more : List (Nat × FieldSlot)}

theorem append (h : Filled s s₁ value cell places) (hmore : Filled s₁ s₂ value cell more) :
    Filled s s₂ value cell (places ++ more) := by
  have hcross : ∀ p ∈ places, ∀ q ∈ more, ∀ d, cell p.1 p.2.name = some (.shared d) →
      cell q.1 q.2.name ≠ some (.shared d) := by
    intro p hp q hq d hpd hqd
    obtain ⟨c, hc, -, hmade⟩ := h.cells p hp
    obtain ⟨c', hc', -, hmade'⟩ := hmore.cells q hq
    exact hmade.apart hmade' (Option.some.inj (hc.symm.trans hpd)) (Option.some.inj (hc'.symm.trans hqd))
  refine ⟨h.grown.trans hmore.grown, fun p hp => ?_, fun p hp q hq d hpd hqd => ?_⟩
  · rcases List.mem_append.1 hp with hp | hp
    · obtain ⟨c, hc, hshared, hmade⟩ := h.cells p hp
      exact ⟨c, hc, hshared, hmade.mono List.prefix_rfl hmore.grown⟩
    · obtain ⟨c, hc, hshared, hmade⟩ := hmore.cells p hp
      exact ⟨c, hc, hshared, hmade.mono h.grown List.prefix_rfl⟩
  · rcases List.mem_append.1 hp with hp | hp <;> rcases List.mem_append.1 hq with hq | hq
    · exact h.apart p hp q hq d hpd hqd
    · exact absurd hqd (hcross p hp q hq d hpd)
    · exact absurd hpd (hcross q hq p hp d hqd)
    · exact hmore.apart p hp q hq d hpd hqd

/-- Places that have the same cells in another object. -/
theorem congr (h : Filled s s₁ value cell places) (cell' : Nat → Text → Option (FieldCell α))
    (heq : ∀ p ∈ places, cell' p.1 p.2.name = cell p.1 p.2.name) : Filled s s₁ value cell' places := by
  refine ⟨h.grown, fun p hp => heq p hp ▸ h.cells p hp, fun p hp q hq d hpd hqd => ?_⟩
  rw [heq p hp] at hpd
  rw [heq q hq] at hqd
  exact h.apart p hp q hq d hpd hqd

/-- The places of the first layer. -/
theorem first {fields : List FieldSlot} (o : Layers (FieldCell α))
    (h : Filled s s₁ value (fun _ name => o.cells.lookup name) (fields.map (0, ·))) :
    Filled s s₁ value o.cellAt (fields.map (0, ·)) := by
  refine h.congr o.cellAt fun p hp => ?_
  obtain ⟨f, -, rfl⟩ := List.mem_map.1 hp
  exact o.cellAt_zero f.name

/-- The places of an object below another layer. -/
theorem below (cell : Nat → Text → Option (FieldCell α))
    (h : Filled s s₁ (fun k => value (k + 1)) (fun k => cell (k + 1)) places) :
    Filled s s₁ value cell (places.map fun p => (p.1 + 1, p.2)) := by
  refine ⟨h.grown, fun p' hp' => ?_, fun p' hp' q' hq' d hpd hqd => ?_⟩
  · obtain ⟨p, hp, rfl⟩ := List.mem_map.1 hp'
    exact h.cells p hp
  · obtain ⟨p, hp, rfl⟩ := List.mem_map.1 hp'
    obtain ⟨q, hq, rfl⟩ := List.mem_map.1 hq'
    obtain ⟨hdepth, hname⟩ := h.apart p hp q hq d hpd hqd
    exact ⟨congrArg (· + 1) hdepth, hname⟩

end Filled

namespace Code

/-- Makes the cell of an entry, given the value of its argument. -/
def CellEntry.make? (e : CellEntry) (v : α) (s : SharedCells α) : Option (FieldCell α × SharedCells α) :=
  if e.package ≠ runtimeName then none
  else if e.function = "NewValue" then some (.value ⟨v⟩, s)
  else if e.function = "NewRef" then some (.shared (s.create v).1, (s.create v).2)
  else none

theorem CellEntry.exists_make?_ofField (f : FieldSlot) (v : α) (s : SharedCells α) : ∃ c s',
    (ofField f).make? v s = some (c, s') ∧ s.contents <+: s'.contents ∧ c.isShared = f.isRef ∧ c.Made s s' v := by
  cases hf : f.isRef with
  | false =>
    have hword : (ofField f).function = Text.ofString "NewValue" := by
      rw [ofField, cellKind, hf]
      rfl
    exact ⟨.value ⟨v⟩, s, by rw [make?, hword]; rfl, List.prefix_rfl, rfl, rfl, by rintro d ⟨⟩⟩
  | true =>
    have hword : (ofField f).function = Text.ofString "NewRef" := by
      rw [ofField, cellKind, hf]
      rfl
    refine ⟨.shared (s.create v).1, (s.create v).2, by rw [make?, hword]; rfl, List.prefix_append .., rfl, ?_, ?_⟩
    · simp [FieldCell.content?, SharedCells.borrow?, SharedCells.create]
    · rintro d ⟨⟩
      exact Nat.le_refl _

namespace Composite

/-- The names of a layer, `variant` for the tag among them, stand once each. -/
def Named (names : List Text) : Prop := (("variant" : Text) :: names).Nodup

instance (names : List Text) : Decidable (Named names) := inferInstanceAs (Decidable (List.Nodup _))

/-- Makes the cells of a layer. -/
def makeCells? (value : CellEntry → α) : List CellEntry → SharedCells α →
    Option (List (Text × FieldCell α) × SharedCells α)
  | [], s => some ([], s)
  | e :: entries, s =>
    (e.make? (value e) s).bind fun r => (makeCells? value entries r.2).map fun r' => ((e.name, r.1) :: r'.1, r'.2)

/-- Makes the object of a literal, given the values of the arguments in each layer, if each layer gives every name
once. -/
def make? : Composite → (Nat → CellEntry → α) → SharedCells α → Option (Layers (FieldCell α) × SharedCells α)
  | last cells tag, value, s =>
    if Named (cells.map (·.name)) then (makeCells? (value 0) cells s).map fun r => (.last r.1 tag, r.2) else none
  | next cells tag _ rest, value, s =>
    if Named (cells.map (·.name)) then
      (makeCells? (value 0) cells s).bind fun r =>
        (rest.make? (fun k => value (k + 1)) r.2).map fun r' => (.next r.1 tag r'.1, r'.2)
    else none

theorem exists_makeCells? (value : Nat → CellEntry → α) {fields : List FieldSlot} (hnd : (fields.map (·.name)).Nodup)
    (s : SharedCells α) : ∃ cells s', makeCells? (value 0) (fields.map .ofField) s = some (cells, s') ∧
      Filled s s' (fun k f => value k (.ofField f)) (fun _ name => cells.lookup name) (fields.map (0, ·)) := by
  induction fields generalizing s with
  | nil => exact ⟨[], s, rfl, List.prefix_rfl, nofun, nofun⟩
  | cons f fields ih =>
    obtain ⟨hf, hnd⟩ := List.nodup_cons.1 hnd
    obtain ⟨c, s₁, hmake, hgrown, hshared, hmade⟩ := CellEntry.exists_make?_ofField f (value 0 (.ofField f)) s
    obtain ⟨cells, s₂, hcells, hfilled⟩ := ih hnd s₁
    have hown : Filled s s₁ (fun k f => value k (.ofField f)) (fun _ name => ((f.name, c) :: cells).lookup name)
        [(0, f)] := by
      refine ⟨hgrown, List.forall_mem_singleton.2 ⟨c, List.lookup_cons_self, hshared, hmade⟩, ?_⟩
      simp only [List.mem_singleton]
      rintro _ rfl _ rfl _ - -
      exact ⟨rfl, rfl⟩
    have hothers := hfilled.congr (fun _ name => ((f.name, c) :: cells).lookup name) <| by
      intro p hp
      obtain ⟨g, hg, rfl⟩ := List.mem_map.1 hp
      have hne : (g.name == f.name) = false := by
        have hmem : g.name ∈ fields.map (·.name) := List.mem_map_of_mem hg
        exact beq_eq_false_iff_ne.2 fun heq => hf (show f.name ∈ _ from heq ▸ hmem)
      simp [List.lookup_cons, hne]
    refine ⟨(f.name, c) :: cells, s₂, ?_, hown.append hothers⟩
    rw [List.map_cons, makeCells?, hmake, Option.bind_some, hcells]
    rfl

end Composite

namespace LayerLiteral

/-- The places of the fields in the layers of a literal. -/
def places : LayerLiteral → List (Nat × FieldSlot)
  | last cells _ => cells.map (0, ·)
  | next cells _ _ rest => cells.map (0, ·) ++ rest.places.map fun p => (p.1 + 1, p.2)

def tags : LayerLiteral → List Text
  | last _ _ => []
  | next _ tag _ rest => tag :: rest.tags

def ends : LayerLiteral → Text
  | last _ tag => tag
  | next _ _ _ rest => rest.ends

/-- Every layer gives each name once. -/
def Named : LayerLiteral → Prop
  | last cells _ => Composite.Named (cells.map (·.name))
  | next cells _ _ rest => Composite.Named (cells.map (·.name)) ∧ rest.Named

/-- A literal makes an object whose places have the values of its entries. -/
theorem exists_make? {l : LayerLiteral} (h : l.Named) (value : Nat → CellEntry → α) (s : SharedCells α) : ∃ o s',
    l.composite.make? value s = some (o, s') ∧ o.tags = l.tags ∧ o.ends = l.ends ∧
      Filled s s' (fun k f => value k (.ofField f)) o.cellAt l.places := by
  have hnames : ∀ cells : List FieldSlot, (cells.map CellEntry.ofField).map (·.name) = cells.map (·.name) := by
    intro cells
    rw [List.map_map]
    rfl
  induction l generalizing value s with
  | last cells tag =>
    obtain ⟨made, s', hmake, hfilled⟩ := Composite.exists_makeCells? value (List.nodup_cons.1 h).2 s
    refine ⟨.last made tag, s', ?_, rfl, rfl, ?_⟩
    · have hnamed : Composite.Named (cells.map (·.name)) := h
      rw [composite, Composite.make?, hnames, if_pos hnamed, hmake]
      rfl
    · exact Filled.first (.last made tag) hfilled
  | next cells tag layer rest ih =>
    obtain ⟨hnamed, hrest⟩ := h
    obtain ⟨made, s₁, hmake, hfilled⟩ := Composite.exists_makeCells? value (List.nodup_cons.1 hnamed).2 s
    obtain ⟨o, s₂, hmake', htags, hends, hfilled'⟩ := ih hrest (fun k => value (k + 1)) s₁
    refine ⟨.next made tag o, s₂, ?_, congrArg (tag :: ·) htags, hends, ?_⟩
    · rw [composite, Composite.make?, hnames, if_pos hnamed, hmake, Option.bind_some, hmake']
      rfl
    · exact (Filled.first (.next made tag o) hfilled).append (Filled.below (Layers.next made tag o).cellAt hfilled')

end LayerLiteral

/-- A root handle with the handles of the given types around it, of which the last is that of the root. -/
def HandleValue.ofTypes? {ρ : Type} : List Text → ρ → Option (HandleValue ρ)
  | [], _ => none
  | [m], r => some (.root m r)
  | m :: n :: types, r => (ofTypes? (n :: types) r).map (.sub m)

theorem HandleValue.ofTypes?_around {ρ : Type} (root : Text) (below : List Text) (r : ρ) :
    ofTypes? (below.reverse ++ [root]) r = some ((HandleValue.root root r).around below) := by
  induction below using List.reverseRecOn with
  | nil => rfl
  | append_singleton below m ih =>
    obtain ⟨n, types, htypes⟩ : ∃ n types, below.reverse ++ [root] = n :: types :=
      List.exists_cons_of_ne_nil (by simp)
    rw [List.reverse_append, List.append_assoc, List.reverse_singleton, List.singleton_append, htypes, ofTypes?,
      ← htypes, ih, around, around, List.foldl_append]
    rfl

/-- Allocates a new object in an arena, given the values of the arguments in each layer. -/
def Allocation.make? (x : Allocation) (value : Nat → CellEntry → α) (arena : Nat) (m : Memory α) :
    Option (HandleValue (Option ObjectHandle) × Memory α) :=
  if x.package = runtimeName then
    (x.literal.make? value m.shared).bind fun r =>
      (m.objects.allocate arena r.1).toOption.bind fun new =>
        (HandleValue.ofTypes? x.handles (some new.1)).map fun handle => (handle, ⟨new.2, r.2⟩)
  else none

/-- In an open arena the allocation of a factory makes an object whose places have the values of its entries. -/
theorem ConstructorCode.exists_make? {c : ConstructorCode} (h : c.literal.Named) (value : Nat → CellEntry → α)
    (m : Memory α) {arena : Nat} (hopen : m.objects.isReleased arena = false) : ∃ r o m',
      c.allocation.make? value arena m = some (c.newHandle (some r), m') ∧ o.tags = c.literal.tags ∧
        o.ends = c.literal.ends ∧
        m'.Holds (some r) o c.literal.places ∧
        ∀ s ∈ c.literal.places, m'.contentAt o s = some (value s.1 (.ofField s.2)) := by
  obtain ⟨o, shared, hmake, htags, hends, hfilled⟩ := LayerLiteral.exists_make? h value m.shared
  obtain ⟨r, objects, hallocate⟩ : ∃ r objects, m.objects.allocate arena o = .ok (r, objects) :=
    ⟨_, _, ObjectStore.hold_eq_ok.2 ⟨hopen, rfl, rfl⟩⟩
  have hhandle : HandleValue.ofTypes? c.allocation.handles (some r) = some (c.newHandle (some r)) :=
    HandleValue.ofTypes?_around ..
  have hliteral : c.allocation.literal.make? value m.shared = some (o, shared) := hmake
  refine ⟨r, o, ⟨objects, shared⟩, ?_, htags, hends, ⟨ObjectStore.get_allocate arena o hallocate, ?_,
    hfilled.apart⟩, ?_⟩
  · have hpackage : c.allocation.package = runtimeName := rfl
    rw [Allocation.make?, if_pos hpackage, hliteral, Option.bind_some, hallocate]
    exact congrArg (Option.map _) hhandle
  · intro s hs
    obtain ⟨cell, hcell, hshared, hmade⟩ := hfilled.cells s hs
    exact ⟨cell, hcell, hshared, Option.isSome_iff_exists.2 ⟨_, hmade.content⟩⟩
  · intro s hs
    obtain ⟨cell, hcell, -, hmade⟩ := hfilled.cells s hs
    rw [Memory.contentAt, hcell]
    exact hmade.content

end Code

end MeaningForest

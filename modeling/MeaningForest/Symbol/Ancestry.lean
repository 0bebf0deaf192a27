import MeaningForest.Fault

/-!
# Ancestries

Following parents from an element gives its ancestry: the list from the root to the element itself.  The number of
steps is bounded, since parents that are set one by one may lead back to where they started.
-/

namespace MeaningForest

/-- The ancestry of an element, root first.  There is room for a number of elements; if the parents go on beyond it,
the ancestry is `endless`. -/
def ancestry {α : Type} (parent : α → Except Fault (Option α)) (endless : Fault) :
    (room : Nat) → Option α → Except Fault (List α)
  | _, none => .ok []
  | 0, some _ => .error endless
  | room + 1, some a => do
    let above ← ancestry parent endless room (← parent a)
    return above ++ [a]

/-- The elements after the first occurrence of `a`, if it occurs. -/
def after? {α : Type} [DecidableEq α] (a : α) : List α → Option (List α)
  | [] => none
  | b :: rest => if b = a then some rest else after? a rest

/-- The elements that lead from `source` up to its ancestor `target` on an ancestry, the source left out. -/
def pathUp? {α : Type} [DecidableEq α] (asc : List α) (source target : α) : Option (List α) :=
  match asc.idxOf? source, asc.idxOf? target with
  | some s, some t => if t ≤ s then some ((asc.take s).drop t).reverse else none
  | _, _ => none

end MeaningForest

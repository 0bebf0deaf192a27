/-!
# Override trees

The overrides of a method form a tree.  Its nodes are the meanings below the one that defines the method, and a node
has code if that meaning overrides the method.  A tree is given by its first node, what is below this node and the
nodes beside it; nodes stand in the order in which they were registered.

* `OverrideTree.resolve_register_self`: what is registered on a path is what the path resolves to.
-/

namespace MeaningForest

/-- A tree of overrides: `κ` are the meanings, `γ` is what a node may hold. -/
inductive OverrideTree (κ γ : Type) where
  | nil
  | node (key : κ) (code : Option γ) (below rest : OverrideTree κ γ)
  deriving DecidableEq, Repr

namespace OverrideTree

variable {κ γ : Type} [DecidableEq κ]

/-- What a node at the top of the tree holds, and the tree below it. -/
def get? (k : κ) : OverrideTree κ γ → Option (Option γ × OverrideTree κ γ)
  | nil => none
  | node key code below rest => if key = k then some (code, below) else get? k rest

/-- A tree without branches that holds `code` at its end. -/
def chain (code : γ) (k : κ) : List κ → OverrideTree κ γ
  | [] => node k (some code) nil nil
  | j :: path => node k none (chain code j path) nil

/-- Registers code at the end of a path that starts with `k`. -/
def register (code : γ) : OverrideTree κ γ → κ → List κ → OverrideTree κ γ
  | nil, k, path => chain code k path
  | node key held below rest, k, path =>
    if key = k then
      match path with
      | [] => node key (some code) below rest
      | j :: path => node key held (register code below j path) rest
    else node key held below (register code rest k path)

/-- The code for a path: the deepest on it.  Where the tree has no node for the next step, the path ends. -/
def resolve (t : OverrideTree κ γ) : List κ → Option γ
  | [] => none
  | k :: path =>
    match t.get? k with
    | none => none
    | some (code, below) => (below.resolve path).or code

/-- The list of nodes at the top of the tree. -/
def top : OverrideTree κ γ → List (κ × Option γ × OverrideTree κ γ)
  | nil => []
  | node key code below rest => (key, code, below) :: top rest

private theorem resolve_chain (code : γ) (k : κ) (path : List κ) :
    (chain code k path).resolve (k :: path) = some code := by
  induction path generalizing k with
  | nil => simp [chain, resolve, get?]
  | cons j path ih => rw [resolve]; simp [chain, get?, ih]

theorem resolve_register_self (code : γ) (t : OverrideTree κ γ) (k : κ) (path : List κ) :
    (t.register code k path).resolve (k :: path) = some code := by
  induction t generalizing k path with
  | nil => exact resolve_chain code k path
  | node key held below rest ihb ihr =>
    rw [register.eq_def]
    by_cases hk : key = k
    · cases path with
      | nil => simp [resolve, get?, hk]
      | cons j path => rw [resolve]; simp [get?, hk, ihb]
    · simpa [resolve, get?, hk] using ihr k path

end OverrideTree

end MeaningForest

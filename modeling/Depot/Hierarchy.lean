import Depot.Path

set_option autoImplicit false

namespace Depot

/-- Items that have a name and hold other items, fewer than they count themselves. -/
class Hierarchy (α : Type) where
  name : α → Name
  children : α → List α
  size : α → Nat
  -- The zero is named, so that it does not depend on what is imported.
  size_children (item : α) :
    @List.sum Nat instAddNat Zero.ofOfNat0 ((children item).map size) < size item

namespace Hierarchy

variable {α : Type} [Hierarchy α]

def located (path : Path) (items : List α) : List (Path × α) :=
  items.map fun item => (path.push (name item), item)

/-- How many items those on a stack count. -/
def pending (stack : List (Path × α)) : Nat :=
  @List.sum Nat instAddNat Zero.ofOfNat0 (stack.map fun located => size located.2)

theorem pending_located (path : Path) (items : List α) :
    pending (located path items) = @List.sum Nat instAddNat Zero.ofOfNat0 (items.map size) := by
  rw [pending, located, List.map_map, Function.comp_def]

theorem pending_append (left right : List (Path × α)) :
    pending (left ++ right) = pending left + pending right := by
  rw [pending, List.map_append, List.sum_append_nat]
  rfl

theorem size_lt_of_mem_children {item child : α} (held : child ∈ children item) :
    size child < size item := by
  have fewer := size_children item
  obtain ⟨before, after, whole⟩ := List.append_of_mem held
  rw [whole, List.map_append, List.sum_append_nat, List.map_cons, List.sum_cons] at fewer
  omega

/-- Takes items off a stack, putting what each holds in front of what is left. -/
def unstack : List (Path × α) → List (Path × α)
  | [] => []
  | (path, item) :: rest => (path, item) :: unstack (located path (children item) ++ rest)
termination_by stack => pending stack
decreasing_by
  rw [pending_append, pending_located]
  exact Nat.add_lt_add_right (size_children item) _

def walk (items : List α) : List (Path × α) :=
  unstack (located .root items)

/-- An item and all that it holds, parents before their children and siblings in order. -/
def preorder (parent : Path) (item : α) : List (Path × α) :=
  let path := parent.push (name item)
  (path, item) :: (children item).attach.flatMap fun ⟨child, _⟩ => preorder path child
termination_by size item
decreasing_by
  rename_i held
  exact size_lt_of_mem_children held

/-- The item that is reached by following a chain of names, and what was found before it. -/
def follow (found : Option α) (items : List α) : List Name → Option α
  | [] => found
  | next :: rest =>
    match items.find? fun item => name item = next with
    | none => none
    | some item => follow (some item) (children item) rest

def find? (items : List α) (path : Path) : Option α :=
  follow none items path.names

end Hierarchy

end Depot

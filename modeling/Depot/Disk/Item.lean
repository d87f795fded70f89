import Depot.Hierarchy

set_option autoImplicit false

namespace Depot.Disk

/-- Something on a disk. -/
inductive Item where
  | file (name : Name) (content : Bytes)
  | directory (name : Name) (items : List Item)
  /-- A symbolic link, with the location that it stands for. -/
  | link (name : Name) (target : Bytes)

namespace Item

def name : Item → Name
  | file name _ => name
  | directory name _ => name
  | link name _ => name

def children : Item → List Item
  | directory _ items => items
  | _ => []

def isDirectory : Item → Bool
  | directory .. => true
  | _ => false

mutual

def size : Item → Nat
  | directory _ items => sizeList items + 1
  | _ => 1

def sizeList : List Item → Nat
  | [] => 0
  | item :: rest => size item + sizeList rest

end

theorem sizeList_eq (items : List Item) : sizeList items =
    @List.sum Nat instAddNat Zero.ofOfNat0 (items.map size) := by
  induction items with
  | nil => rfl
  | cons item rest ih => rw [sizeList, ih, List.map_cons, List.sum_cons]

instance : Hierarchy Item where
  name := name
  children := children
  size := size
  size_children item := by cases item <;> simp [children, size, sizeList_eq]

def named? (items : List Item) (name : Name) : Option Item :=
  items.find? fun item => item.name = name

/-- The items with one more, which takes the place of one with the same name. -/
def put (added : Item) : List Item → List Item
  | [] => [added]
  | item :: rest =>
    if item.name = added.name then added :: rest
    else if added.name.precedes item.name then added :: item :: rest
    else item :: put added rest

def without (name : Name) (items : List Item) : List Item :=
  items.filter fun item => item.name ≠ name

/-- The items in the directory that is reached by a chain of names. -/
def inside? (items : List Item) : (position : List Name) → Option (List Item)
  | [] => some items
  | name :: rest =>
    match named? items name with
    | some (directory _ inner) => inside? inner rest
    | _ => none

/-- Changes the items in the directory that is reached by a chain of names. -/
def change (apply : List Item → List Item) : (position : List Name) → List Item → List Item
  | [], items => apply items
  | name :: rest, items =>
    items.map fun item =>
      match item with
      | directory name' inner =>
        if name' = name then directory name' (change apply rest inner) else item
      | _ => item

end Item

end Depot.Disk

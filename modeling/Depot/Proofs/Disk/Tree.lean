import Depot.Disk.Basic

set_option autoImplicit false

namespace Depot.Disk

/-- What stands at a place. -/
inductive Thing where
  | directory
  | file (content : Bytes)
  | link (target : Location)
deriving DecidableEq

namespace Item

/-- What an item is, without its name and without what it holds. -/
def thing : Item → Thing
  | file _ content => .file content
  | directory .. => .directory
  | link _ target => .link target

/-- What stands at the end of a chain of names. -/
def thing? (items : List Item) : (place : List Name) → Option Thing
  | [] => some .directory
  | name :: rest =>
    match named? items name with
    | none => none
    | some (directory _ inner) => thing? inner rest
    | some item => if rest = [] then some item.thing else none

theorem named?_cons (item : Item) (rest : List Item) (name : Name) :
    named? (item :: rest) name = if item.name = name then some item else named? rest name := by
  by_cases same : item.name = name <;> simp [named?, same]

theorem named?_put (added : Item) (items : List Item) (name : Name) :
    named? (put added items) name = if added.name = name then some added else named?
      items name := by
  induction items with
  | nil => rw [put, named?_cons]
  | cons item rest ih =>
    unfold put
    by_cases replaced : item.name = added.name
    · rw [if_pos replaced, named?_cons, named?_cons, replaced]
      by_cases same : added.name = name <;> simp [same]
    · rw [if_neg replaced]
      split
      · rw [named?_cons]
      · rw [named?_cons, ih, named?_cons]
        by_cases same : item.name = name
        · have other : added.name ≠ name := fun equal => replaced (same.trans equal.symm)
          simp [same, other]
        · simp [same]

theorem named?_without (removed : Name) (items : List Item) (name : Name) :
    named? (without removed items) name = if removed = name then none else named? items name := by
  induction items with
  | nil => simp [without, named?]
  | cons item rest ih =>
    unfold without at ih ⊢
    by_cases gone : item.name = removed
    · rw [List.filter_cons_of_neg (by simpa using gone), ih, named?_cons, gone]
      by_cases same : removed = name <;> simp [same]
    · rw [List.filter_cons_of_pos (by simpa using gone), named?_cons, ih, named?_cons]
      by_cases same : item.name = name
      · have other : removed ≠ name := fun equal => gone (same.trans equal.symm)
        simp [same, other]
      · simp [same]

theorem name_of_named? {items : List Item} {name : Name} {item : Item}
    (found : named? items name = some item) : item ∈ items ∧ item.name = name := by
  refine ⟨List.mem_of_find?_eq_some found, ?_⟩
  simpa using List.find?_some found

/-- What stands in a directory, seen from further up. -/
theorem thing?_append {items inner : List Item} {position : List Name}
    (inside : inside? items position = some inner) (rest : List Name) :
    thing? items (position ++ rest) = thing? inner rest := by
  induction position generalizing items with
  | nil =>
    cases inside
    rfl
  | cons name position ih =>
    unfold inside? at inside
    split at inside
    · next name' between found =>
      rw [List.cons_append, thing?, found]
      exact ih inside
    · cases inside

/-- The directories are where there are items inside. -/
theorem thing?_eq_directory {items : List Item} {position : List Name} :
    thing? items position = some .directory ↔ ∃ inner, inside? items position = some inner := by
  induction position generalizing items with
  | nil => simp [thing?, inside?]
  | cons name position ih =>
    unfold thing? inside?
    split
    · next absent => simp [absent]
    · next name' inner found => simp [found, ih]
    · next item other found =>
      cases item with
      | directory name' inner => exact absurd rfl (other name' inner)
      | file name' content => by_cases last : position = [] <;> simp [last, thing, found]
      | link name' target => by_cases last : position = [] <;> simp [last, thing, found]

/-- What stands directly in a directory. -/
theorem thing?_last (items : List Item) (position : List Name) (name : Name) :
    ((inside? items position).bind fun inner => named? inner name).map thing =
      thing? items (position ++ [name]) := by
  induction position generalizing items with
  | nil =>
    simp only [inside?, Option.bind_some, List.nil_append, thing?]
    split <;> simp_all [thing]
  | cons first position ih =>
    simp only [inside?, List.cons_append, thing?]
    cases found : named? items first with
    | none => rfl
    | some item => cases item <;> simp [ih]

/-- Only directories have something below them. -/
theorem thing?_prefix {items : List Item} {position rest : List Name} (below : rest ≠ [])
    (there : thing? items (position ++ rest) ≠ none) : thing? items position = some .directory := by
  induction position generalizing items with
  | nil => rfl
  | cons name position ih =>
    rw [List.cons_append, thing?] at there
    rw [thing?]
    split at there
    · exact absurd rfl there
    · exact ih there
    · simp [below] at there

theorem named?_change (apply : List Item → List Item) (name : Name) (position : List Name)
    (items : List Item) (other : Name) :
    named? (change apply (name :: position) items) other =
      (named? items other).map fun item =>
        match item with
        | directory name' inner =>
          if name' = name then directory name' (change apply position inner) else item
        | _ => item := by
  rw [change, named?, List.find?_map, named?]
  -- The items keep their names, so that the same one is found.
  congr 2
  funext item
  cases item with
  | directory name' inner =>
    by_cases same : name' = name
    · simp [same, Item.name]
    · simp only [Function.comp, same, if_false]
  | file name' content => rfl
  | link name' target => rfl

/-- A change in a directory shows only under the names that it is about. -/
theorem thing?_change_apart {apply : List Item → List Item} {spot : Name}
    (leaves : ∀ items name, spot ≠ name → named? (apply items) name = named? items name)
    (position : List Name) : ∀ {items : List Item} {place : List Name},
      ¬ (position ++ [spot]) <+: place →
        thing? (change apply position items) place = thing? items place := by
  induction position with
  | nil =>
    intro items place apart
    cases place with
    | nil => rfl
    | cons name rest =>
      have other : spot ≠ name := fun same => apart ⟨rest, by simp [same]⟩
      rw [change, thing?, thing?, leaves items name other]
  | cons first position ih =>
    intro items place apart
    cases place with
    | nil => rfl
    | cons name rest =>
      rw [thing?, named?_change, thing?]
      cases found : named? items name with
      | none => rfl
      | some item =>
        have same := (name_of_named? found).2
        cases item with
        | directory name' inner =>
          by_cases here : name' = first
          · have inside : ¬ (position ++ [spot]) <+: rest := by
              intro leads
              obtain ⟨more, rfl⟩ := leads
              exact apart ⟨more, by simp [← here, ← same, Item.name]⟩
            simp only [Option.map_some, here, if_true]
            exact ih inside
          · simp only [Option.map_some, here, if_false]
        | file name' content => rfl
        | link name' target => rfl

/-- What a change does in the directory in which it is made. -/
theorem inside?_change {apply : List Item → List Item} {position : List Name}
    {items inner : List Item} (inside : inside? items position = some inner) :
    inside? (change apply position items) position = some (apply inner) := by
  induction position generalizing items with
  | nil =>
    cases inside
    rfl
  | cons name position ih =>
    rw [inside?] at inside ⊢
    rw [named?_change]
    split at inside
    · next name' between found =>
      have same : name' = name := (name_of_named? found).2
      simp only [found, Option.map_some, same, if_true]
      exact ih inside
    · cases inside

end Item

namespace Change

/-- The place that a change is about. -/
def spot : Change → List Name
  | directory position name => position ++ [name]
  | file position name _ => position ++ [name]
  | link position name _ => position ++ [name]
  | remove position name => position ++ [name]

def thing? : Change → Option Thing
  | directory .. => some .directory
  | file _ _ content => some (.file content)
  | link _ _ target => some (.link target)
  | remove .. => none

/-- A change leaves everything as it is that is not at its place or below. -/
theorem thing?_apart (change : Change) {items : List Item} {place : List Name}
    (apart : ¬ change.spot <+: place) :
    Item.thing? (change.apply items) place = Item.thing? items place := by
  have puts (added : Item) (items : List Item) (name : Name) (other : added.name ≠ name) :
      Item.named? (Item.put added items) name = Item.named? items name := by
    rw [Item.named?_put, if_neg other]
  cases change with
  | directory position name =>
    exact Item.thing?_change_apart (puts (.directory name [])) position apart
  | file position name content =>
    exact Item.thing?_change_apart (puts (.file name content)) position apart
  | link position name target =>
    exact Item.thing?_change_apart (puts (.link name target)) position apart
  | remove position name =>
    refine Item.thing?_change_apart (fun items other unequal => ?_) position apart
    rw [Item.named?_without, if_neg unequal]

/-- What is put into a directory is all that stands at its place and below. -/
theorem thing?_put {items inner : List Item} {position : List Name}
    (inside : Item.inside? items position = some inner) {added : Item} (empty : added.children = [])
    (rest : List Name) :
    Item.thing? (Item.change (Item.put added) position items) (position ++ [added.name] ++ rest) =
      if rest = [] then some added.thing else none := by
  rw [List.append_assoc, Item.thing?_append (Item.inside?_change inside), List.singleton_append,
    Item.thing?, Item.named?_put, if_pos rfl]
  cases added with
  | directory name inner =>
    simp only [Item.children] at empty
    cases rest <;> simp [Item.thing?, Item.thing, empty, Item.named?]
  | file name content => rfl
  | link name target => rfl

/-- Where something is removed nothing is left. -/
theorem thing?_removed (items : List Item) (position : List Name) (name : Name) (rest : List Name) :
    Item.thing? (Change.apply items (.remove position name)) (position ++ [name] ++ rest) =
      none := by
  rw [apply]
  induction position generalizing items with
  | nil => simp [Item.change, Item.thing?, Item.named?_without]
  | cons first position ih =>
    simp only [List.cons_append, Item.thing?, Item.named?_change]
    cases found : Item.named? items first with
    | none => rfl
    | some item =>
      have same := (Item.name_of_named? found).2
      cases item with
      | directory name' inner =>
        simp only [Item.name] at same
        simpa only [Option.map_some, same, if_true] using ih inner
      | file name' content => simp
      | link name' target => simp

/-- At its place a change shows what it says, and nothing below, if it is made in a directory. -/
theorem thing?_spot (change : Change) {items : List Item}
    (around : change.thing? ≠ none → Item.thing? items change.spot.dropLast = some .directory)
    (rest : List Name) :
    Item.thing? (change.apply items) (change.spot ++ rest) =
      if rest = [] then change.thing? else none := by
  cases change with
  | directory position name =>
    obtain ⟨inner, inside⟩ := Item.thing?_eq_directory.mp (around (by simp [thing?]))
    rw [spot, List.dropLast_concat] at inside
    exact thing?_put inside rfl rest
  | file position name content =>
    obtain ⟨inner, inside⟩ := Item.thing?_eq_directory.mp (around (by simp [thing?]))
    rw [spot, List.dropLast_concat] at inside
    exact thing?_put inside rfl rest
  | link position name target =>
    obtain ⟨inner, inside⟩ := Item.thing?_eq_directory.mp (around (by simp [thing?]))
    rw [spot, List.dropLast_concat] at inside
    exact thing?_put inside rfl rest
  | remove position name =>
    rw [spot, thing?_removed, thing?, ite_self]

end Change

end Disk

def Disk.thing? (disk : Disk) (place : List Name) : Option Disk.Thing :=
  Disk.Item.thing? disk.items place

end Depot

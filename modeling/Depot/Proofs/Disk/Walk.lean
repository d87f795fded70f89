import Depot.Proofs.Disk.Location
import Depot.Proofs.Disk.Tree

set_option autoImplicit false

namespace Depot.Disk

open Location (enter origin steps place Passes)

def Linkless (disk : Disk) : Prop :=
  ∀ spot target, disk.thing? spot ≠ some (.link target)

/-- Some steps lead from one place to another one, where the remaining ones are left. A link leads
to where its target does. -/
inductive Walks (items : List Item) : List Name → List Bytes → List Name → List Bytes → Prop where
  | stay (here : List Name) (left : List Bytes) : Walks items here left here left
  | enter {here there : List Name} {step : Bytes} {rest left : List Bytes}
    (plain : ∀ target, Item.thing? items (enter here step) ≠ some (.link target))
    (further : Walks items (enter here step) rest there left) :
      Walks items here (step :: rest) there left
  | turn {here there : List Name} {step : Bytes} {rest left : List Bytes} {target : Location}
    (link : Item.thing? items (enter here step) = some (.link target))
    (further : Walks items (origin here target) (steps target ++ rest) there left) :
    Walks items here (step :: rest) there left

variable {items items' : List Item} {here there goal goal' : List Name}
  {taken left more : List Bytes}

namespace Walks

/-- Only the links on a disk decide which way a location leads. -/
theorem congr (walks : Walks items here taken there left)
    (same : ∀ spot target, Item.thing? items' spot = some (.link target) ↔
      Item.thing? items spot = some (.link target)) : Walks items' here taken there left := by
  induction walks with
  | stay here left => exact .stay here left
  | enter plain _ ih => exact .enter (fun target link => plain target ((same _ target).mp link)) ih
  | turn link _ ih => exact .turn ((same _ _).mpr link) ih

/-- What comes after some steps does not count as long as they are followed. -/
theorem append (walks : Walks items here taken there left) (more : List Bytes) :
    Walks items here (taken ++ more) there (left ++ more) := by
  induction walks with
  | stay here left => exact .stay here _
  | enter plain _ ih => exact .enter plain ih
  | turn link _ ih =>
    rw [List.append_assoc] at ih
    exact .turn link ih

theorem trans {middle : List Name} {between : List Bytes}
    (first : Walks items here taken middle between)
    (second : Walks items middle between there left) : Walks items here taken there left := by
  induction first with
  | stay _ _ => exact second
  | enter plain _ ih => exact .enter plain (ih second)
  | turn link _ ih => exact .turn link (ih second)

/-- A walk along two stretches of steps is on the first one, or on the second one from where the
first one ends. -/
theorem split (walks : Walks items here (taken ++ more) there left) :
    (∃ before, left = before ++ more ∧ Walks items here taken there before) ∨
      ∃ between, Walks items here taken between [] ∧ Walks items between more there left := by
  generalize whole : taken ++ more = all at walks
  induction walks generalizing taken with
  | stay here all => exact .inl ⟨taken, whole.symm, .stay here taken⟩
  | @enter here there step rest left plain further ih =>
    cases taken with
    | nil =>
      rw [List.nil_append] at whole
      exact .inr ⟨here, .stay here [], whole ▸ .enter plain further⟩
    | cons step' taken =>
      obtain ⟨rfl, rfl⟩ := List.cons.inj whole
      rcases ih rfl with ⟨before, left', walks⟩ | ⟨between, walks, later⟩
      · exact .inl ⟨before, left', .enter plain walks⟩
      · exact .inr ⟨between, .enter plain walks, later⟩
  | @turn here there step rest left target link further ih =>
    cases taken with
    | nil =>
      rw [List.nil_append] at whole
      exact .inr ⟨here, .stay here [], whole ▸ .turn link further⟩
    | cons step' taken =>
      obtain ⟨rfl, rfl⟩ := List.cons.inj whole
      rcases ih (List.append_assoc ..) with ⟨before, left', walks⟩ | ⟨between, walks, later⟩
      · exact .inl ⟨before, left', .turn link walks⟩
      · exact .inr ⟨between, .turn link walks, later⟩

/-- All steps lead to one place only. -/
theorem ends_inj (walks : Walks items here taken goal [])
    (walks' : Walks items here taken goal' []) :
    goal = goal' := by
  generalize nothing : ([] : List Bytes) = left at walks
  induction walks with
  | stay here left =>
    subst nothing
    cases walks'
    rfl
  | enter plain _ ih =>
    cases walks' with
    | enter _ further => exact ih further nothing
    | turn link _ => exact absurd link (plain _)
  | turn link _ ih =>
    cases walks' with
    | enter plain _ => exact absurd link (plain _)
    | turn link' further =>
      cases link.symm.trans link'
      exact ih further nothing

/-- Without links each step leads to where its name says. -/
theorem eq_foldl (linkless : ∀ spot target, Item.thing? items spot ≠ some (.link target))
    (walks : Walks items here taken there left) :
    ∃ early, taken = early ++ left ∧ there = early.foldl Location.enter here := by
  induction walks with
  | stay here left => exact ⟨[], rfl, rfl⟩
  | @enter here there step rest left _ _ ih =>
    obtain ⟨early, rfl, rfl⟩ := ih
    exact ⟨step :: early, rfl, rfl⟩
  | turn link _ _ => exact absurd link (linkless _ _)

theorem of_linkless (linkless : ∀ spot target, Item.thing? items spot ≠ some (.link target))
    (here : List Name) (taken left : List Bytes) :
    Walks items here (taken ++ left) (taken.foldl Location.enter here) left := by
  induction taken generalizing here with
  | nil => exact .stay here left
  | cons step rest ih => exact .enter (linkless _) (ih _)

end Walks

/-- The way to a location comes through a place. -/
def Visits (disk : Disk) (location : Location) (spot : List Name) : Prop :=
  ∃ left, Walks disk.items (origin disk.working location) (steps location) spot left

variable {disk after : Disk} {location directory : Location} {name : Name}

theorem visits_congr (same : ∀ spot target, after.thing? spot = some (.link target) ↔
      disk.thing? spot = some (.link target)) (working : after.working = disk.working)
    (location : Location) : Visits after location = Visits disk location := by
  funext spot
  rw [Visits, Visits, working]
  exact propext
    ⟨fun ⟨left, walks⟩ => ⟨left, walks.congr fun spot target => (same spot target).symm⟩,
    fun ⟨left, walks⟩ => ⟨left, walks.congr same⟩⟩

/-- Without links the way to a location is as it is written. -/
theorem Visits.passes (linkless : disk.Linkless) {spot : List Name}
    (visits : Visits disk location spot) :
    Passes disk.working location spot := by
  obtain ⟨left, walks⟩ := visits
  obtain ⟨early, whole, rfl⟩ := walks.eq_foldl linkless
  exact ⟨early, ⟨left, whole.symm⟩, rfl⟩

/-- A parent starts where the location does, and its way is a part of the way of the location. -/
theorem visits_parent {parent : Location} (present : parent ∈ location.parents) {spot : List Name}
    (visits : Visits disk parent spot) : Visits disk location spot := by
  obtain ⟨start, length, kept⟩ := Location.steps_parent disk.working present
  obtain ⟨left, walks⟩ := visits
  rw [start, kept] at walks
  exact ⟨_, by simpa only [List.take_append_drop] using walks.append ((steps location).drop length)⟩

/-- On the way to a name in a directory lies what is on the way to the directory. -/
theorem visits_join
    (ends : Walks disk.items (origin disk.working directory) (steps directory) goal [])
    (plain : ∀ target, disk.thing? (goal ++ [name]) ≠ some (.link target)) {spot : List Name}
    (visits : Visits disk (directory.join name.bytes) spot) :
    Visits disk directory spot ∨ spot = goal ++ [name] := by
  obtain ⟨left, walks⟩ := visits
  rw [Location.origin_join, (Location.steps_join directory name).1] at walks
  rcases walks.split with ⟨before, _, walks⟩ | ⟨between, walks, later⟩
  · exact .inl ⟨before, walks⟩
  · cases ends.ends_inj walks
    cases later with
    | stay _ _ => exact .inl ⟨[], ends⟩
    | enter _ further =>
      rw [Location.enter_name] at further
      cases further
      exact .inr rfl
    | turn link _ =>
      rw [Location.enter_name] at link
      exact absurd link (plain _)

end Depot.Disk

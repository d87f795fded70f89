import Depot.Disk.Basic
import Depot.Proofs.Disk.Walk

set_option autoImplicit false

namespace Depot.Disk

open Location (enter origin steps place)

/-- What is found at a place stands there. -/
inductive Found.At (items : List Item) : List Name → Found → Prop where
  | directory {position : List Name} (there : Item.thing? items position = some .directory) :
    At items position (.directory position)
  | file {position : List Name} {name : Name} {content : Bytes}
    (there : Item.thing? items (position ++ [name]) = some (.file content)) :
    At items (position ++ [name]) (.file position name content)
  | vacant {position : List Name} {name : Name}
    (around : Item.thing? items position = some .directory)
    (absent : Item.thing? items (position ++ [name]) = none) :
    At items (position ++ [name]) (.vacant position name)

theorem thing?_dropLast {items : List Item} {here : List Name}
    (there : Item.thing? items here = some .directory) :
    Item.thing? items here.dropLast = some .directory := by
  rcases List.eq_nil_or_concat here with rfl | ⟨front, last, rfl⟩
  · rfl
  · rw [List.concat_eq_append, List.dropLast_concat]
    rw [List.concat_eq_append] at there
    exact Item.thing?_prefix (List.cons_ne_nil last []) (by simp [there])

theorem thing?_origin {items : List Item} {here : List Name}
    (there : Item.thing? items here = some .directory) (target : Location) :
    Item.thing? items (origin here target) = some .directory := by
  rw [origin]
  split
  · rfl
  · exact there

/-- What some steps from a directory end at: what stands where they lead, or a link that is not to
be followed. -/
inductive Ends (items : List Item) (through : Bool) (here : List Name) (taken : List Bytes) :
    Found → Prop where
  | there {goal : List Name} {found : Found} (walks : Walks items here taken goal [])
    (stands : Found.At items goal found) : Ends items through here taken found
  | link {position : List Name} {name : Name} {target : Location} (unfollowed : through = false)
    (walks : Walks items here taken position [name.bytes])
    (stands : Item.thing? items (position ++ [name]) = some (.link target)) :
    Ends items through here taken (.link position name)

variable {items : List Item} {through : Bool}

theorem Ends.enter {here : List Name} {step : Bytes} {rest : List Bytes} {found : Found}
    (plain : ∀ target, Item.thing? items (enter here step) ≠ some (.link target))
    (ends : Ends items through (enter here step) rest found) :
    Ends items through here (step :: rest) found := by
  cases ends with
  | there walks stands => exact .there (.enter plain walks) stands
  | link unfollowed walks stands => exact .link unfollowed (.enter plain walks) stands

theorem Ends.turn {here : List Name} {step : Bytes} {rest : List Bytes} {target : Location}
    {found : Found} (link : Item.thing? items (Location.enter here step) = some (.link target))
    (ends : Ends items through (origin here target) (steps target ++ rest) found) :
    Ends items through here (step :: rest) found := by
  cases ends with
  | there walks stands => exact .there (.turn link walks) stands
  | link unfollowed walks stands => exact .link unfollowed (.turn link walks) stands

/-- The parts that lead on. -/
def leading (parts : List Bytes) : List Bytes :=
  parts.filter fun part => part ≠ [] ∧ part ≠ [Name.dot]

theorem leading_idle {part : Bytes} (idle : part = [] ∨ part = [Name.dot]) (rest : List Bytes) :
    leading (part :: rest) = leading rest :=
  List.filter_cons_of_neg (by simpa [or_iff_not_imp_left] using idle)

theorem leading_step {part : Bytes} (onward : ¬ (part = [] ∨ part = [Name.dot]))
    (rest : List Bytes) :
    leading (part :: rest) = part :: leading rest :=
  List.filter_cons_of_pos (by simpa [not_or] using onward)

theorem leading_target (target : Location) (rest : List Bytes) :
    leading (Path.parts target ++ rest) = steps target ++ leading rest :=
  List.filter_append ..

/-- A name is followed to what stands there. -/
theorem followTo_name (items : List Item) (through : Bool)
    (turn : List Name → List Bytes → Except Refusal Found) (here : List Name) (name : Name)
    (rest : List Bytes) :
    followTo items through turn here (name.bytes :: rest) =
      match Item.thing? items (here ++ [name]) with
      | none => if rest = [] then .ok (.vacant here name) else .error .notFound
      | some .directory => followTo items through turn (here ++ [name]) rest
      | some (.file content) => if rest =
        [] then .ok (.file here name content) else .error .notDirectory
      | some (.link target) =>
        if rest = [] ∧ !through then .ok (.link here name)
        else turn (origin here target) (Path.parts target ++ rest) := by
  obtain ⟨filled, dot, dots, _⟩ := name.facts
  rw [followTo, if_neg (by simp [filled, dot]), if_neg dots, Name.ofBytes_bytes, ← Item.thing?_last]
  dsimp only
  cases (Item.inside? items here).bind fun inner => Item.named? inner name with
  | none => rfl
  | some item => cases item <;> rfl

/-- The part is empty or a full stop, leads back up, is refused or is a name. -/
theorem followTo_cases (items : List Item) (through : Bool)
    (turn : List Name → List Bytes → Except Refusal Found) (here : List Name) (part : Bytes)
    (rest : List Bytes) :
    (part = [] ∨ part = [Name.dot]) ∧
        followTo items through turn here (part :: rest) = followTo items through turn here rest ∨
      part = [Name.dot, Name.dot] ∧ followTo items through turn here (part :: rest) =
        followTo items through turn here.dropLast rest ∨
      (∃ refusal, followTo items through turn here (part :: rest) = .error refusal) ∨
      ∃ name : Name, part = name.bytes := by
  by_cases idle : part = [] ∨ part = [Name.dot]
  · exact .inl ⟨idle, by rw [followTo, if_pos idle]⟩
  · by_cases up : part = [Name.dot, Name.dot]
    · exact .inr (.inl ⟨up, by rw [followTo, if_neg idle, if_pos up]⟩)
    · cases valid : Name.ofBytes part with
      | error fault =>
        exact .inr (.inr (.inl ⟨.nameTooLong, by rw [followTo, if_neg idle, if_neg up, valid]⟩))
      | ok name => exact .inr (.inr (.inr ⟨name, (Name.bytes_of_ofBytes valid).symm⟩))

theorem leading_up (rest : List Bytes) :
    leading ([Name.dot, Name.dot] :: rest) = [Name.dot, Name.dot] :: leading rest :=
  leading_step (by decide) rest

theorem leading_name (name : Name) (rest : List Bytes) :
    leading (name.bytes :: rest) = name.bytes :: leading rest := by
  obtain ⟨filled, dot, _, _⟩ := name.facts
  exact leading_step (by simp [filled, dot]) rest

theorem enter_up (here : List Name) : enter here [Name.dot, Name.dot] = here.dropLast :=
  if_pos rfl

/-- Following a name from a directory, given what following the rest comes to. -/
theorem followTo_name_ends {turn : List Name → List Bytes → Except Refusal Found} {name : Name}
    {rest : List Bytes} {here : List Name} {found : Found}
    (turns : ∀ here parts found, Item.thing? items here = some .directory →
      turn here parts = .ok found → Ends items through here (leading parts) found)
    (onward : ∀ {here found}, Item.thing? items here = some .directory →
      followTo items through turn here rest = .ok found → Ends items through here
        (leading rest) found)
    (there : Item.thing? items here = some .directory)
    (followed : followTo items through turn here (name.bytes :: rest) = .ok found) :
    Ends items through here (name.bytes :: leading rest) found := by
  rw [followTo_name] at followed
  split at followed
  · next absent =>
    split at followed
    · next last =>
      cases followed
      subst last
      refine .enter (by simp [Location.enter_name, absent]) (.there (.stay _ []) ?_)
      rw [Location.enter_name]
      exact .vacant there absent
    · cases followed
  · next stands =>
    refine .enter (by simp [Location.enter_name, stands]) ?_
    rw [Location.enter_name]
    exact onward stands followed
  · next content stands =>
    split at followed
    · next last =>
      cases followed
      subst last
      refine .enter (by simp [Location.enter_name, stands]) (.there (.stay _ []) ?_)
      rw [Location.enter_name]
      exact .file stands
    · cases followed
  · next target stands =>
    split at followed
    · next unfollowed =>
      cases followed
      obtain ⟨last, here'⟩ := unfollowed
      subst last
      exact .link (by simpa using here') (.stay here _) stands
    · refine .turn (by rwa [Location.enter_name]) ?_
      rw [← leading_target]
      exact turns _ _ _ (thing?_origin there target) followed

/-- Following the parts of a location from a directory, by induction on them. -/
theorem followTo_ends {turn : List Name → List Bytes → Except Refusal Found}
    (turns : ∀ here parts found, Item.thing? items here = some .directory →
      turn here parts = .ok found → Ends items through here (leading parts) found)
    {parts : List Bytes} : ∀ {here : List Name} {found : Found},
      Item.thing? items here = some .directory → followTo items through turn here parts =
        .ok found →
      Ends items through here (leading parts) found := by
  induction parts with
  | nil =>
    intro here found there followed
    rw [followTo] at followed
    cases followed
    exact .there (.stay here []) (.directory there)
  | cons part rest ih =>
    intro here found there followed
    rcases followTo_cases items through turn here part rest with
      ⟨idle, onward⟩ | ⟨rfl, onward⟩ | ⟨refusal, refused⟩ | ⟨name, rfl⟩
    · rw [leading_idle idle]
      exact ih there (onward ▸ followed)
    · have above := thing?_dropLast there
      rw [leading_up]
      exact .enter (by simp [enter_up, above]) (enter_up here ▸ ih above (onward ▸ followed))
    · rw [refused] at followed
      cases followed
    · rw [leading_name]
      exact followTo_name_ends turns ih there followed

theorem follow_ends {links : Nat} : ∀ {here : List Name} {parts : List Bytes} {found : Found},
    Item.thing? items here = some .directory → follow items through links here parts = .ok found →
      Ends items through here (leading parts) found := by
  induction links with
  | zero =>
    refine fun there followed => followTo_ends (fun _ _ _ _ refused => ?_) there followed
    cases refused
  | succ links ih => exact fun there followed => followTo_ends (fun _ _ _ => ih) there followed

variable {location : Location} {goal : List Name} {disk : Disk}

theorem find_ends (start : disk.thing? (origin disk.working location) = some .directory)
    {found : Found} (there : disk.find through location = .ok found) :
    Ends disk.items through (origin disk.working location) (steps location) found := by
  unfold find at there
  split at there
  · cases there
  split at there
  · cases there
  split at there
  · cases there
  exact follow_ends start there

/-- Whatever is found at the location stands at the place. -/
def Finds (disk : Disk) (through : Bool) (location : Location) (goal : List Name) : Prop :=
  ∀ found, disk.find through location = .ok found → Found.At disk.items goal found

theorem Finds.isDirectory_at (finds : Finds disk true location goal)
    (there : disk.isDirectory location = true) : disk.thing? goal = some .directory := by
  unfold isDirectory at there
  cases found : disk.find true location with
  | error refusal => simp [found] at there
  | ok found' =>
    have stands := finds found' found
    cases stands with
    | directory there => exact there
    | file _ => simp [found] at there
    | vacant _ _ => simp [found] at there

theorem Finds.isFile_at (finds : Finds disk true location goal)
    (there : disk.isFile location = true) :
    ∃ content, disk.thing? goal = some (.file content) := by
  unfold isFile at there
  cases found : disk.find true location with
  | error refusal => simp [found] at there
  | ok found' =>
    have stands := finds found' found
    cases stands with
    | directory _ => simp [found] at there
    | file there => exact ⟨_, there⟩
    | vacant _ _ => simp [found] at there

/-- The location leads to the place; its way starts in a directory and comes through nothing that
lies below the place, and no link is there or below. -/
structure Leads (location : Location) (goal : List Name) (disk : Disk) : Prop where
  start : disk.thing? (origin disk.working location) = some .directory
  ends : Walks disk.items (origin disk.working location) (steps location) goal []
  clear : ∀ spot, Visits disk location spot → ∀ name rest, spot ≠ goal ++ name :: rest
  bare : ∀ path target, disk.thing? (goal ++ path) ≠ some (.link target)

theorem Leads.finds (leads : Leads location goal disk) : Finds disk true location goal := by
  intro found there
  cases find_ends leads.start there with
  | there walks stands =>
    cases leads.ends.ends_inj walks
    exact stands
  | link unfollowed _ _ => cases unfollowed

theorem Leads.plain (leads : Leads location goal disk) (name : Name) :
    ∀ target, disk.thing? (goal ++ [name]) ≠ some (.link target) :=
  leads.bare [name]

theorem walks_join (ends : Walks disk.items (origin disk.working location) (steps location) goal [])
    {name : Name} (plain : ∀ target, disk.thing? (goal ++ [name]) ≠ some (.link target)) :
    Walks disk.items (origin disk.working (location.join name.bytes))
      (steps (location.join name.bytes))
      (goal ++ [name]) [] := by
  rw [Location.origin_join, (Location.steps_join location name).1]
  refine (ends.append [name.bytes]).trans (.enter ?_ ?_)
  · rwa [Location.enter_name]
  · rw [Location.enter_name]
    exact .stay _ []

/-- A location in a directory leads to a place in it. -/
theorem Leads.join (leads : Leads location goal disk) (name : Name) :
    Leads (location.join name.bytes) (goal ++ [name]) disk where
  start := by
    rw [Location.origin_join]
    exact leads.start
  ends := walks_join leads.ends (leads.plain name)
  clear := by
    rintro spot visits other rest rfl
    rcases visits_join leads.ends (leads.plain name) visits with outer | here
    · exact leads.clear _ outer name (other :: rest) (by simp)
    · simp at here
  bare path := by
    rw [List.append_assoc]
    exact leads.bare _

/-- What is found under a name in a directory stands there, and is no link. -/
theorem Leads.finds_in (leads : Leads location goal disk) (name : Name) (through : Bool) :
    Finds disk through (location.join name.bytes) (goal ++ [name]) := by
  intro found there
  have inner := leads.join name
  cases find_ends inner.start there with
  | there walks stands =>
    cases inner.ends.ends_inj walks
    exact stands
  | @link position last target _ walks stands =>
    rw [Location.origin_join, (Location.steps_join location name).1] at walks
    rcases walks.split with ⟨before, left, walks⟩ | ⟨between, walks, later⟩
    · -- The link would be what the name stands for.
      obtain ⟨rfl, same⟩ := List.append_inj' (List.nil_append _ |>.trans left) rfl
      cases leads.ends.ends_inj walks
      have last' : last = name := Name.ext (List.singleton_inj.mp same)
      subst last'
      exact absurd stands (leads.plain last _)
    · cases leads.ends.ends_inj walks
      generalize remaining : [last.bytes] = left at later
      cases later with
      | stay _ _ =>
        have last' : last = name := Name.ext (List.singleton_inj.mp remaining)
        subst last'
        exact absurd stands (leads.plain last _)
      | enter _ further =>
        subst remaining
        cases further
      | turn link _ =>
        rw [Location.enter_name] at link
        exact absurd link (leads.plain name _)

end Depot.Disk

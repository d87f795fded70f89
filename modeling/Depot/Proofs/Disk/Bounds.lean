import Depot.Proofs.Disk.Finding
import Depot.Proofs.Outcome

set_option autoImplicit false

namespace Depot.Disk

variable {location : Location} {goal : List Name} {disk : Disk}

variable {ε α β : Type}

/-- The disk after some steps, of which the last one may have been refused. -/
def afterwards (steps : EStateM ε Disk α) (disk : Disk) : Disk :=
  match steps disk with
  | .ok _ after => after
  | .error _ after => after

theorem afterwards_of_ok {steps : EStateM ε Disk α} {value : α} {after : Disk}
    (done : steps disk = .ok value after) : afterwards steps disk = after := by
  rw [afterwards, done]

theorem afterwards_bind (first : EStateM ε Disk α) (next : α → EStateM ε Disk β) (disk : Disk) :
    afterwards (first >>= next) disk =
      match first disk with
      | .ok value between => afterwards (next value) between
      | .error _ between => between := by
  simp only [afterwards, bind, EStateM.bind]
  cases first disk <;> rfl

/-- Some steps change nothing but what stands at certain places, and make some directories where
nothing was. What is new has a name that is a text, apart from those directories, and is no link. -/
structure Bounded (changed made : List Name → Prop) (before after : Disk) : Prop where
  working : after.working = before.working
  kept : ∀ spot, ¬ changed spot → after.thing? spot = before.thing? spot ∨
    made spot ∧ before.thing? spot = none ∧ after.thing? spot = some .directory
  named : ∀ spot, after.thing? spot ≠ none → before.thing? spot ≠ none ∨ made spot ∨
    ∃ name ∈ spot.getLast?, name.Textual
  links : ∀ spot target, after.thing? spot = some (.link target) →
    before.thing? spot = some (.link target)

variable {changed made changed' made' : List Name → Prop} {before between after : Disk}

theorem Bounded.of_items (items : after.items = before.items)
    (working : after.working = before.working) :
    Bounded changed made before after := by
  have same : ∀ spot, after.thing? spot = before.thing? spot := by
    intro spot
    rw [thing?, thing?, items]
  exact ⟨working, fun spot _ => .inl (same spot), fun spot there => .inl (same spot ▸ there),
    fun spot target link => same spot ▸ link⟩

theorem Bounded.refl (disk : Disk) : Bounded changed made disk disk :=
  .of_items rfl rfl

theorem Bounded.trans (first : Bounded changed made before between)
    (second : Bounded changed made between after) : Bounded changed made before after where
  working := second.working.trans first.working
  kept spot apart := by
    rcases first.kept spot apart with same | ⟨new, vacant, filled⟩
    · rcases second.kept spot apart with same' | ⟨new, vacant, filled⟩
      · exact .inl (same'.trans same)
      · exact .inr ⟨new, same ▸ vacant, filled⟩
    · rcases second.kept spot apart with same' | ⟨_, vacant', _⟩
      · exact .inr ⟨new, vacant, same'.trans filled⟩
      · rw [filled] at vacant'
        cases vacant'
  named spot there := by
    rcases second.named spot there with there | new
    · exact first.named spot there
    · exact .inr new
  links spot target link := first.links spot target (second.links spot target link)

theorem Bounded.mono (bounded : Bounded changed made before after)
    (changes : ∀ spot, changed spot → changed' spot)
    (makes : ∀ spot, made spot → changed' spot ∨ made' spot)
    (texts : ∀ spot, made spot → made' spot ∨ ∃ name ∈ spot.getLast?, name.Textual) :
    Bounded changed' made' before after where
  working := bounded.working
  kept spot apart := by
    rcases bounded.kept spot fun change => apart (changes spot change) with same | ⟨new, empty⟩
    · exact .inl same
    · rcases makes spot new with change | new
      · exact absurd change apart
      · exact .inr ⟨new, empty⟩
  named spot there := by
    rcases bounded.named spot there with there | new | text
    · exact .inl there
    · exact .inr (texts spot new)
    · exact .inr (.inr text)
  links := bounded.links

/-- The same places count as made, and more as changed. -/
theorem Bounded.widen (bounded : Bounded changed made before after)
    (changes : ∀ spot, changed spot → changed' spot) : Bounded changed' made before after :=
  bounded.mono changes (fun _ new => .inr new) fun _ new => .inl new

theorem Bounded.bind {first : EStateM ε Disk α} {next : α → EStateM ε Disk β}
    (here : Bounded changed made disk (afterwards first disk))
    (there : ∀ value between, first disk = .ok value between →
      Bounded changed made between (afterwards (next value) between)) :
    Bounded changed made disk (afterwards (first >>= next) disk) := by
  rw [afterwards_bind]
  cases ended : first disk with
  | error refusal between =>
    rwa [afterwards, ended] at here
  | ok value between =>
    rw [afterwards_of_ok ended] at here
    exact here.trans (there value between ended)

/-- A directory stays one if nothing changes there. -/
theorem Bounded.directory (bounded : Bounded changed made before after) {spot : List Name}
    (apart : ¬ changed spot) (there : before.thing? spot = some .directory) :
    after.thing? spot = some .directory := by
  rcases bounded.kept spot apart with same | ⟨_, vacant, _⟩
  · rw [same, there]
  · rw [there] at vacant
    cases vacant

/-- What stands where nothing changes is a link just if it was one. -/
theorem Bounded.link_iff (bounded : Bounded changed made before after)
    (bare : ∀ spot, changed spot → ∀ target, before.thing? spot ≠ some (.link target))
    (spot : List Name) (target : Location) :
    after.thing? spot = some (.link target) ↔ before.thing? spot = some (.link target) := by
  refine ⟨bounded.links spot target, fun link => ?_⟩
  rcases bounded.kept spot fun change => bare spot change target link with same | ⟨_, vacant, _⟩
  · rw [same, link]
  · rw [link] at vacant
    cases vacant

/-- No change was made, and the system has no more steps to refuse than before. -/
structure Still (before after : Disk) : Prop where
  items : after.items = before.items
  working : after.working = before.working
  changes : after.changes = before.changes
  refusals : after.refusals <:+ before.refusals

namespace Still

theorem refl (disk : Disk) : Still disk disk :=
  ⟨rfl, rfl, rfl, List.suffix_refl _⟩

theorem trans (first : Still before between) (second : Still between after) : Still before after :=
  ⟨second.items.trans first.items, second.working.trans first.working,
    second.changes.trans first.changes, second.refusals.trans first.refusals⟩

variable (still : Still before after)

include still

theorem thing? (spot : List Name) : after.thing? spot = before.thing? spot := by
  rw [Disk.thing?, Disk.thing?, still.items]

theorem find (through : Bool) (location : Location) :
    after.find through location = before.find through location := by
  rw [Disk.find, Disk.find, still.items, still.working]

theorem list (location : Location) : after.list location = before.list location := by
  rw [Disk.list, Disk.list, still.find, still.items]

theorem bounded : Bounded changed made before after :=
  .of_items still.items still.working

end Still

variable (leads : Leads location goal before) (bounded : Bounded changed made before after)
  (below : ∀ spot, changed spot → ∃ name rest, spot = goal ++ name :: rest)

include leads bounded below

theorem Leads.link_iff (spot : List Name) (target : Location) :
    after.thing? spot = some (.link target) ↔ before.thing? spot = some (.link target) := by
  refine bounded.link_iff (fun spot change => ?_) spot target
  obtain ⟨name, rest, rfl⟩ := below spot change
  exact leads.bare (name :: rest)

/-- The way to a location is what it was if all that changed lies below its goal. -/
theorem Leads.visits : Visits after location = Visits before location :=
  visits_congr (leads.link_iff bounded below) bounded.working location

/-- A location leads where it led if all that changed lies below its goal. -/
theorem Leads.lasts : Leads location goal after where
  start := by
    rw [bounded.working]
    refine bounded.directory (fun change => ?_) leads.start
    obtain ⟨name, rest, spot⟩ := below _ change
    exact leads.clear _ ⟨_, .stay _ _⟩ name rest spot
  ends := by
    rw [bounded.working]
    exact leads.ends.congr (leads.link_iff bounded below)
  clear := by
    rw [leads.visits bounded below]
    exact leads.clear
  bare path target link := leads.bare path target (bounded.links _ target link)

end Depot.Disk

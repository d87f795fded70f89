import Depot.Proofs.NameMap

set_option autoImplicit false

namespace Depot

/-- What is done to a registry. -/
inductive Registration where
  | add (name : String) (plan : Plan)
  | replace (name : String) (plan : Plan)
  | remove (name : String)

namespace Registry

variable {registry former : Registry}

/-- The registry after something was done to it. What is not added changes nothing. -/
def step (registry : Registry) : Registration → Registry
  | .add name plan =>
    match registry.add name plan with
    | .ok added => added
    | .error _ => registry
  | .replace name plan => (registry.replace name plan).2
  | .remove name => (registry.remove name).2

def run (registry : Registry) (history : List Registration) : Registry :=
  history.foldl step registry

/-- Whether a registry became another one over time. -/
def Precedes (former registry : Registry) : Prop :=
  ∃ earlier later, former = empty.run earlier ∧ registry = former.run later

/-- Whether a revision that two registries have for an artifact stands for one plan. -/
def Agrees (former registry : Registry) : Prop :=
  ∀ {name : String} {one other : Artifact}, former.find? name = some one →
    registry.find? name = some other → one.revision = other.revision → one.plan = other.plan

/-- How registries go on: an artifact was there before, or has a revision that was handed out since.
-/
structure Continues (former registry : Registry) : Prop where
  ascends : former.lastRevision ≤ registry.lastRevision
  found : ∀ {name : String} {artifact : Artifact}, registry.find? name = some artifact →
    former.find? name = some artifact ∨
      former.lastRevision < artifact.revision ∧ artifact.revision ≤ registry.lastRevision

theorem Continues.refl (registry : Registry) : registry.Continues registry :=
  ⟨Nat.le_refl _, .inl⟩

theorem Continues.trans {middle : Registry} (first : former.Continues middle)
    (second : middle.Continues registry) : former.Continues registry := by
  refine ⟨Nat.le_trans first.ascends second.ascends, fun found => ?_⟩
  have ascends := second.ascends
  rcases second.found found with there | ⟨later, bounded⟩
  · exact (first.found there).imp_right fun ⟨later, bounded⟩ => ⟨later, by omega⟩
  · exact .inr ⟨Nat.lt_of_le_of_lt first.ascends later, bounded⟩

theorem replace_continues (registry : Registry) (name : String) (plan : Plan) :
    registry.Continues (registry.replace name plan).2 := by
  refine ⟨Nat.le_succ _, fun {other artifact} found => ?_⟩
  rw [find?, replace, NameMap.find?_insert] at found
  split at found
  · cases found
    exact .inr ⟨Nat.lt_succ_self _, Nat.le_refl _⟩
  · exact .inl found

theorem remove_continues (registry : Registry) (name : String) :
    registry.Continues (registry.remove name).2 := by
  refine ⟨Nat.le_refl _, fun {other artifact} found => ?_⟩
  rw [find?, remove, NameMap.find?_erase] at found
  split at found
  · cases found
  · exact .inl found

theorem step_continues (registry : Registry) (registration : Registration) :
    registry.Continues (registry.step registration) := by
  cases registration with
  | add name plan =>
    simp only [step, add]
    cases registry.find? name with
    | some taken => exact .refl _
    | none => exact registry.replace_continues name plan
  | replace name plan => exact registry.replace_continues name plan
  | remove name => exact registry.remove_continues name

/-- By induction on what was done. -/
theorem run_continues (registry : Registry) (history : List Registration) :
    registry.Continues (registry.run history) := by
  induction history generalizing registry with
  | nil => exact .refl _
  | cons registration rest ih => exact (registry.step_continues registration).trans (ih _)

/-- A registry that goes on does not use a revision again. -/
theorem Precedes.agrees (precedes : former.Precedes registry) : former.Agrees registry := by
  obtain ⟨earlier, later, rfl, rfl⟩ := precedes
  intro name one other found now same
  rcases (empty.run_continues earlier).found found with absent | ⟨_, bounded⟩
  · cases absent
  · rcases ((empty.run earlier).run_continues later).found now with there | ⟨newer, _⟩
    · cases found.symm.trans there
      rfl
    · omega

end Registry

end Depot

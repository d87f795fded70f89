import Depot.Build.Slot

set_option autoImplicit false

namespace Depot

/-- Whether a change to `changed` concerns a dependency; one that is not known is not concerned. -/
def Workspace.concerns (workspace : Workspace) (changed : Source) : Touch → Bool
  | .file source => workspace.touchesFile changed source
  | .copy source => workspace.touchesCopy changed source
  | .fault _ => false

theorem Workspace.reaches_of_known {workspace : Workspace} {changed : Source} {touches : List Touch}
    (known : ∀ fault, .fault fault ∉ touches) :
    workspace.reaches changed touches = .ok (touches.any (workspace.concerns changed)) := by
  induction touches with
  | nil => rfl
  | cons touch rest ih =>
    have later := ih fun fault present => known fault (List.mem_cons_of_mem _ present)
    cases touch with
    | file source =>
      rw [reaches, later, List.any_cons, concerns]
      cases workspace.touchesFile changed source <;> simp
    | copy source =>
      rw [reaches, later, List.any_cons, concerns]
      cases workspace.touchesCopy changed source <;> simp
    | fault fault => exact absurd List.mem_cons_self (known fault)

namespace Slot

mutual

/-- Induction on a slot, with what holds of all slots of a container. -/
theorem induct {motive : Slot → Prop} (file : ∀ name source, motive (.file name source))
    (failed : ∀ kind name touches fault, motive (.container kind name touches (.error fault)))
    (container : ∀ kind name touches slots, (∀ slot ∈ slots, motive slot) →
      motive (.container kind name touches (.ok slots))) : (slot : Slot) → motive slot
  | .file name source => file name source
  | .container kind name touches (.error fault) => failed kind name touches fault
  | .container kind name touches (.ok slots) =>
    container kind name touches slots (inductEach file failed container slots)

theorem inductEach {motive : Slot → Prop} (file : ∀ name source, motive (.file name source))
    (failed : ∀ kind name touches fault, motive (.container kind name touches (.error fault)))
    (container : ∀ kind name touches slots, (∀ slot ∈ slots, motive slot) →
      motive (.container kind name touches (.ok slots))) :
    (slots : List Slot) → ∀ slot ∈ slots, motive slot
  | [], _, present => nomatch present
  | first :: rest, slot, present => by
    have here := induct file failed container first
    rcases List.mem_cons.mp present with same | later
    · exact same ▸ here
    · exact inductEach file failed container rest slot later

end

variable (workspace : Workspace) (changed : Source)

/-- A change reaches a slot if it concerns one of the dependencies of the slot. -/
def Reached (slot : Slot) : Prop :=
  ∃ touch ∈ slot.touches, workspace.concerns changed touch = true

/-- A change covers a slot if it reaches the slot and every slot inside. -/
inductive Covered : Slot → Prop where
  | file {name : Name} {source : Source} (reached : Reached workspace changed (.file name source)) :
    Covered (.file name source)
  | container {kind : ContainerKind} {name : Name} {touches : List Touch} {slots : List Slot}
    (reached : Reached workspace changed (.container kind name touches (.ok slots)))
    (inner : ∀ slot ∈ slots, Covered slot) : Covered (.container kind name touches (.ok slots))

/-- A slot is resolved if nothing is wrong in it at any depth. -/
inductive Resolved : Slot → Prop where
  | file (name : Name) (source : Source) : Resolved (.file name source)
  | container {kind : ContainerKind} {name : Name} {touches : List Touch} {slots : List Slot}
    (inner : ∀ slot ∈ slots, Resolved slot) : Resolved (.container kind name touches (.ok slots))

/-- A resolved slot whose containers have distinct names inside and know all dependencies of what
they hold. -/
inductive Layered : Slot → Prop where
  | file (name : Name) (source : Source) : Layered (.file name source)
  | container {kind : ContainerKind} {name : Name} {touches : List Touch} {slots : List Slot}
    (known : ∀ fault, .fault fault ∉ touches) (distinct : (slots.map Slot.name).Nodup)
    (upward : ∀ changed, ∀ slot ∈ slots, Reached workspace changed slot →
      Reached workspace changed (.container kind name touches (.ok slots)))
    (inner : ∀ slot ∈ slots, Layered slot) : Layered (.container kind name touches (.ok slots))

variable {workspace changed}

theorem Covered.reached {slot : Slot} (covered : Covered workspace changed slot) :
    Reached workspace changed slot := by
  cases covered with
  | file reached => exact reached
  | container reached _ => exact reached

theorem Layered.known {slot : Slot} (layered : Layered workspace slot) (fault : BuildFault) :
    .fault fault ∉ slot.touches := by
  cases layered with
  | file name source => simp [touches]
  | container known _ _ _ => exact known fault

section Inside

variable {kind : ContainerKind} {name : Name} {touches : List Touch} {slots : List Slot}
  (layered : Layered workspace (.container kind name touches (.ok slots)))

include layered

theorem Layered.distinct : (slots.map Slot.name).Nodup := by
  cases layered with
  | container _ distinct _ _ => exact distinct

theorem Layered.inner : ∀ slot ∈ slots, Layered workspace slot := by
  cases layered with
  | container _ _ _ inner => exact inner

/-- What reaches a slot reaches the container around it. -/
theorem Layered.upward (changed : Source) : ∀ slot ∈ slots, Reached workspace changed slot →
    Reached workspace changed (.container kind name touches (.ok slots)) := by
  cases layered with
  | container _ _ upward _ => exact upward changed

end Inside

theorem reaches_of_layered {slot : Slot} (layered : Layered workspace slot) :
    ∃ reached, workspace.reaches changed slot.touches = .ok reached ∧
      (reached = true ↔ Reached workspace changed slot) := by
  refine ⟨_, Workspace.reaches_of_known layered.known, ?_⟩
  rw [List.any_eq_true]
  rfl

end Slot

end Depot

import Depot.Proofs.Build.Inclusion
import Depot.Proofs.Build.Walk

set_option autoImplicit false

namespace Depot

def Touch.Unknown (touches : List Touch) : Prop :=
  ∃ fault, .fault fault ∈ touches

/-- A slot in which something is wrong, at any depth, and all containers around that know of it. -/
inductive Slot.Blocked : Slot → Prop where
  | failed {kind : ContainerKind} {name : Name} {touches : List Touch} {fault : BuildFault}
    (unknown : Touch.Unknown touches) : Blocked (.container kind name touches (.error fault))
  | inside {kind : ContainerKind} {name : Name} {touches : List Touch}
    {slots : List Slot} {slot : Slot}
    (unknown : Touch.Unknown touches) (present : slot ∈ slots) (blocked : Blocked slot) :
    Blocked (.container kind name touches (.ok slots))

def Slot.BlockedAmong : Except BuildFault (List Slot) → Prop
  | .error _ => True
  | .ok slots => ∃ slot ∈ slots, slot.Blocked

theorem Slot.Blocked.unknown {slot : Slot} (blocked : slot.Blocked) :
    Touch.Unknown slot.touches := by
  cases blocked with
  | failed unknown => exact unknown
  | inside unknown _ _ => exact unknown

namespace Resolver

open Slot (Blocked BlockedAmong)

variable {resolver : Resolver} {chain chain' : List String} {name : String} {plan : Plan}

theorem distinct_blocked {contents : Except BuildFault (List Slot)}
    (blocked : BlockedAmong contents)
    (path : Path) : BlockedAmong (resolver.distinct path contents) := by
  cases made : resolver.distinct path contents with
  | error fault => trivial
  | ok slots =>
    obtain ⟨rfl, _⟩ := distinct_eq_ok.mp made
    exact blocked

theorem container_blocked {touches : List Touch} {contents : Except BuildFault (List Slot)}
    (unknown : Touch.Unknown touches) (blocked : BlockedAmong contents) (kind : ContainerKind)
    (label : Name) : Blocked (.container kind label touches contents) := by
  cases contents with
  | error fault => exact .failed unknown
  | ok slots =>
    obtain ⟨slot, present, blocked⟩ := blocked
    exact .inside unknown present blocked

section Expand

variable {touched : String → List Touch}
  {included : Path → String → Except BuildFault (List Slot)}

theorem expandList_blocked {tree : Outline Ingredient} {path : Path} (present : tree ∈ plan)
    (blocked : BlockedAmong (resolver.expand touched included path tree)) :
    BlockedAmong (resolver.expandList touched included path plan) := by
  cases expanded : resolver.expandList touched included path plan with
  | error fault => trivial
  | ok slots =>
    induction plan generalizing slots with
    | nil => cases present
    | cons first rest ih =>
      simp only [expandList, bind_ok_iff] at expanded
      obtain ⟨front, here, back, later, result⟩ := expanded
      cases result
      rcases List.mem_cons.mp present with rfl | present
      · rw [here] at blocked
        obtain ⟨slot, held, blocked⟩ := blocked
        exact ⟨slot, List.mem_append_left _ held, blocked⟩
      · obtain ⟨slot, held, blocked⟩ := ih present back later
        exact ⟨slot, List.mem_append_right _ held, blocked⟩

end Expand

theorem touches_subset {touched : String → List Touch} {tree : Outline Ingredient}
    (present : tree ∈ plan) : Outline.touches touched tree ⊆ Outline.touchesList touched plan := by
  induction plan with
  | nil => cases present
  | cons first rest ih =>
    rw [Outline.touchesList]
    rcases List.mem_cons.mp present with rfl | later
    · exact List.subset_append_left _ _
    · exact List.Subset.trans (ih later) (List.subset_append_right _ _)

/-- A reference that cannot be followed is known to the plan in whose expansion it occurs, and
blocks the slots of this plan. From the inside out, along the way to the reference. -/
theorem place_blocked {fault : BuildFault}
    (occurs : Occurs resolver.registry chain plan chain' (.leaf (.artifact name)))
    (failed : resolver.registry.enter chain' name = .error fault) :
    .fault fault ∈ resolver.registry.touches chain plan ∧
      ∀ path, BlockedAmong (resolver.place chain path plan) := by
  generalize reference : (.leaf (.artifact name) : Outline Ingredient) = leaf at occurs
  induction occurs with
  | @here chain plan _ present =>
    subst reference
    constructor
    · rw [touches_eq]
      refine touches_subset present ?_
      rw [Outline.touches, touched, failed]
      exact List.mem_singleton_self _
    · intro path
      rw [place]
      refine expandList_blocked present ?_
      rw [expand]
      split
      · trivial
      · next inner entered =>
        rw [failed] at entered
        cases entered
  | @inside chain _ plan children kind label _ present _ ih =>
    obtain ⟨unknown, blocked⟩ := ih failed reference
    rw [touches_eq] at unknown ⊢
    constructor
    · refine touches_subset present ?_
      rwa [Outline.touches]
    · intro path
      rw [place]
      refine expandList_blocked present ?_
      rw [expand]
      have within := blocked (path.push label)
      rw [place] at within
      exact ⟨_, List.mem_singleton_self _,
        container_blocked ⟨fault, unknown⟩ (distinct_blocked within _) kind label⟩
  | @included chain _ plan other artifact _ present found fresh _ ih =>
    have entered : resolver.registry.enter chain other = .ok artifact.plan :=
      Registry.enter_eq_ok.mpr ⟨artifact, found, fresh, rfl⟩
    obtain ⟨unknown, blocked⟩ := ih failed reference
    constructor
    · rw [touches_eq]
      refine touches_subset present ?_
      rw [Outline.touches, touched, entered]
      exact unknown
    · intro path
      rw [place]
      refine expandList_blocked present ?_
      rw [expand]
      split
      · trivial
      · next inner entered' =>
        obtain rfl := Except.ok.inj (entered.symm.trans entered')
        exact blocked path

end Resolver

theorem Workspace.reaches_unknown {workspace : Workspace} {changed : Source} {touches : List Touch}
    (unknown : Touch.Unknown touches) : workspace.reaches changed touches ≠ .ok false := by
  obtain ⟨fault, present⟩ := unknown
  induction touches with
  | nil => cases present
  | cons touch rest ih =>
    cases touch with
    | fault other => simp [reaches]
    | file source =>
      have later := ih (by simpa using present)
      rw [reaches]
      split
      · simp
      · exact later
    | copy source =>
      have later := ih (by simpa using present)
      rw [reaches]
      split
      · simp
      · exact later

namespace Assembler

variable {assembler : Assembler} {scope : Scope} {path : Path} {previous : Option (List Entry)}

theorem reached_unknown {touches : List Touch} (unknown : Touch.Unknown touches) :
    assembler.reached scope touches ≠ .ok false := by
  cases scope with
  | everything => simp [reached]
  | stale => simp [reached]
  | changed source => exact Workspace.reaches_unknown unknown

theorem entries_blocked {slots : List Slot} {slot : Slot} (present : slot ∈ slots)
    (unknown : Touch.Unknown slot.touches)
    (never : ∀ before? result, assembler.entry scope path before? slot ≠ .ok result)
    (result : List Entry × Effort) : assembler.entries scope path previous slots ≠ .ok result := by
  induction slots generalizing result with
  | nil => cases present
  | cons first rest ih =>
    intro walked
    obtain ⟨part, effort, others, more, contributes, later, _⟩ := entries_cons_eq_ok.mp walked
    rcases List.mem_cons.mp present with rfl | present
    · cases contributes with
      | built _ made => exact never _ _ made
      | kept unreached _ => exact reached_unknown unknown unreached
      | supplied unreached _ _ _ => exact reached_unknown unknown unreached
      | skipped unreached _ => exact reached_unknown unknown unreached
    · exact ih present _ later

/-- A blocked slot is never built, by induction on what is wrong in it. -/
theorem entry_blocked {slot : Slot} (blocked : slot.Blocked) :
    ∀ (scope : Scope) (path : Path) (before? : Option Entry) (result : Entry × Effort),
      assembler.entry scope path before? slot ≠ .ok result := by
  induction blocked with
  | failed _ =>
    intro scope path before? result
    exact not_container_error
  | inside _ present blocked ih =>
    intro scope path before? result made
    obtain ⟨members, work, _, built, _⟩ := container_eq_ok.mp made
    exact entries_blocked present blocked.unknown (fun before? result => ih _ _ before? result) _
      built

/-- An artifact with a reference that cannot be followed is never built. -/
theorem output_stuck {artifact : Artifact} {fault : BuildFault}
    (same : artifact.name = assembler.artifact)
    (stuck : assembler.registry.StuckWith artifact fault) (result : List Entry × Effort) :
    assembler.output scope artifact.plan previous ≠ .ok result := by
  obtain ⟨chain, name, occurs, failed⟩ := stuck
  rw [same] at occurs
  intro built
  obtain ⟨slots, resolved, walked⟩ := output_eq_ok.mp built
  have blocked := (@Resolver.place_blocked assembler.resolver _ _ _ _ _ occurs failed).2 .root
  obtain ⟨placed, _⟩ := Resolver.distinct_eq_ok.mp resolved
  have same : assembler.resolver.place [assembler.artifact] .root artifact.plan = .ok slots :=
    placed
  rw [same] at blocked
  obtain ⟨slot, present, blocked⟩ := blocked
  exact entries_blocked present blocked.unknown
    (fun before? result => entry_blocked blocked _ _ before? result) _
    walked

end Assembler

end Depot

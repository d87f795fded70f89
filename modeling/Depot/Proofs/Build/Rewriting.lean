import Depot.Proofs.Build.Expansion
import Depot.Proofs.Build.Meaning
import Depot.Proofs.Build.Output
import Depot.Proofs.Workspace.Rewriting

set_option autoImplicit false

namespace Depot

namespace Resolver

variable {before after : Workspace} {registry : Registry} {artifact : String}

/-- Copies, by induction on the depth. -/
theorem copy_alike (alike : Workspace.Alike before after) (depth : Nat) :
    ∀ (path : Path) (source : Source), copy ⟨after, registry, artifact⟩ depth path source =
      copy ⟨before, registry, artifact⟩ depth path source := by
  induction depth with
  | zero => exact fun _ _ => rfl
  | succ depth ih =>
    intro path source
    have distinct (path : Path) : distinct ⟨after, registry, artifact⟩ path =
        distinct ⟨before, registry, artifact⟩ path := rfl
    simp only [copy, alike.isLive, alike.isDirectory, alike.path, alike.children,
      alike.name, ih, distinct]

/-- What is made of a plan is the same in both. -/
theorem joint_alike (alike : Workspace.Alike before after) :
    Joint ⟨before, registry, artifact⟩ ⟨after, registry, artifact⟩ fun _ _ olds news => news =
      olds where
  nothing _ := rfl
  both first rest := by rw [first, rest]
  file path source := by rw [sourceSlots, sourceSlots, alike.name, alike.path]
  copy path source := by rw [copyAll, copyAll, alike.length, copy_alike alike]
  container path kind name chain children inner := by
    rw [slot, slot, inner]
    rfl
  unknown _ _ := rfl

theorem place_alike (alike : Workspace.Alike before after) (chain : List String) (path : Path)
    (plan : Plan) :
    place ⟨after, registry, artifact⟩ chain path plan = place ⟨before, registry, artifact⟩
      chain path plan :=
  (joint_alike alike).place rfl chain path plan

theorem slots_alike (alike : Workspace.Alike before after) (plan : Plan) :
    slots ⟨after, registry, artifact⟩ plan = slots ⟨before, registry, artifact⟩ plan := by
  rw [slots, slots, place_alike alike]
  rfl

end Resolver

namespace Assembler

open Slot (Layered)

variable {assembler : Assembler} {before : Workspace}

theorem exists_completeEach? {slots : List Slot} (buildable : assembler.Buildable slots) :
    ∃ entries, List.Forall₂ (fun slot entry => assembler.complete? slot = some entry)
      slots entries := by
  induction slots with
  | nil => exact ⟨[], .nil⟩
  | cons slot rest ih =>
    obtain ⟨entry, complete⟩ := buildable slot List.mem_cons_self
    obtain ⟨others, later⟩ := ih fun slot present => buildable slot (List.mem_cons_of_mem _ present)
    exact ⟨entry :: others, .cons complete later⟩

/-- A slot that could be built before can be built with the new contents. -/
theorem exists_complete? (alike : Workspace.Alike before assembler.workspace)
    {slot : Slot} (layered : Layered assembler.workspace slot) :
    ∀ {full : Entry}, (assembler.within before).complete? slot = some full →
      ∃ full', assembler.complete? slot = some full' := by
  induction layered with
  | file name source =>
    intro full was
    obtain ⟨content, read, _⟩ := complete?_source.mp was
    obtain ⟨content', read'⟩ := alike.exists_read read
    exact ⟨_, complete?_source.mpr ⟨content', read', rfl⟩⟩
  | @container kind name touches slots known distinct upward inner ih =>
    intro full was
    have buildable : assembler.Buildable slots := fun slot present =>
      have ⟨_, built⟩ := buildable_of_complete was slot present
      ih slot present built
    obtain ⟨entries, each⟩ := exists_completeEach? buildable
    have names := map_eq_of_forall₂ each fun _ _ built => name_complete? built
    have closed : ∀ entry ∈ entries, Entry.Sealed assembler.hash entry := by
      intro entry present
      obtain ⟨slot, held, built⟩ := exists_of_mem_right each present
      exact (sealed_complete (inner slot held) built).1
    obtain ⟨full', enclosed⟩ := exists_enclose? kind name (names ▸ distinct) closed
    exact ⟨full', complete?_container.mpr ⟨entries, each, enclosed⟩⟩

/-- What a plan that could be built before is resolved to now. -/
theorem slots_of_full? (alike : Workspace.Alike before assembler.workspace)
    (trees : assembler.workspace.Trees) {plan : Plan} {olds : List Entry}
    (was : (assembler.within before).full? plan = some olds) :
    ∃ slots, assembler.resolver.slots plan = .ok slots ∧ (slots.map Slot.name).Nodup ∧
      (∀ slot ∈ slots, Layered assembler.workspace slot) ∧
      List.Forall₂ (fun slot old => (assembler.within before).complete? slot = some old) slots
        olds ∧
      assembler.Buildable slots := by
  unfold full? at was
  split at was
  · next slots expanded =>
    have each := (assembler.within before).completeEach?_eq_some.mp was
    have now : assembler.resolver.slots plan = .ok slots :=
      (Resolver.slots_alike alike plan).trans expanded
    obtain ⟨placed, distinct⟩ := Resolver.distinct_eq_ok.mp now
    have resolved : ∀ slot ∈ slots, slot.Resolved := fun slot present =>
      have ⟨_, _, built⟩ := exists_of_mem_left each present
      resolved_of_complete built
    have layered := (Resolver.place_spread trees placed resolved).layered
    refine ⟨slots, now, distinct, layered, each, fun slot present => ?_⟩
    obtain ⟨_, _, built⟩ := exists_of_mem_left each present
    exact exists_complete? alike (layered slot present) built
  · cases was

theorem full?_alike (alike : Workspace.Alike before assembler.workspace)
    (trees : assembler.workspace.Trees) {plan : Plan} {olds : List Entry}
    (was : (assembler.within before).full? plan = some olds) :
    ∃ fulls, assembler.full? plan = some fulls := by
  obtain ⟨slots, expanded, _, _, _, buildable⟩ := slots_of_full? alike trees was
  obtain ⟨fulls, each⟩ := exists_completeEach? buildable
  exact ⟨fulls, by rw [full?, expanded]; exact assembler.completeEach?_eq_some.mpr each⟩

end Assembler

end Depot

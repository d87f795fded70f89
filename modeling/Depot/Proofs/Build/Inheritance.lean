import Depot.Proofs.Build.Walk

set_option autoImplicit false

namespace Depot.Assembler

open Slot (Separate)

variable {assembler : Assembler} {scope : Scope} {path : Path}

/-- A property that entries from before may have, and one that all entries of a build have then:
what is kept has it, and so has what is built. -/
structure Inherits (assembler : Assembler) (old new : Entry → Prop) : Prop where
  kept : ∀ entry, old entry → new entry
  inside : ∀ kind before members, old before → inside? kind (some before) = some members →
    ∀ member ∈ members, old member
  file : ∀ name source content, assembler.workspace.read source = .ok content →
    new (.ofFile assembler.hash name content (assembler.workspace.stamp source))
  wrap : ∀ kind path name before? members result effort, (∀ before ∈ before?, old before) →
    (members.map Entry.name).Nodup → (∀ member ∈ members, new member) →
    assembler.wrap kind path name before? members = .ok (result, effort) → new result

/-- Whatever a slot is built from, its entry inherits. -/
def Hands (assembler : Assembler) (old new : Entry → Prop) (slot : Slot) : Prop :=
  ∀ scope path before? result effort, (∀ before ∈ before?, old before) →
    assembler.entry scope path before? slot = .ok (result, effort) → new result

section Inherits

variable {old new : Entry → Prop} {previous : Option (List Entry)}

theorem former_inherits (olds : ∀ members ∈ previous, ∀ member ∈ members, old member)
    (slot : Slot) :
    ∀ before ∈ former previous slot, old before := by
  intro before found
  obtain ⟨members, held, found⟩ := Option.bind_eq_some_iff.mp found
  exact olds members held before (named?_mem found).1

theorem entries_inherit {slots : List Slot} (hands : ∀ slot ∈ slots, Hands assembler old new slot)
    (kept : ∀ entry, old entry → new entry)
    (olds : ∀ members ∈ previous, ∀ member ∈ members, old member) :
    ∀ {results : List Entry} {effort : Effort},
      assembler.entries scope path previous slots = .ok (results, effort) →
      ∀ result ∈ results, new result := by
  induction slots with
  | nil =>
    intro results effort built result present
    cases built
    cases present
  | cons slot rest ih =>
    intro results effort built result present
    obtain ⟨first, work, others, more, here, there, rfl, rfl⟩ := entries_cons_eq_ok.mp built
    have hand := hands slot List.mem_cons_self
    rcases List.mem_append.mp present with present | present
    · cases here with
      | built _ made =>
        exact List.mem_singleton.mp present ▸ hand _ _ _ _ _ (former_inherits olds slot) made
      | kept _ found =>
        exact List.mem_singleton.mp present ▸ kept _ (former_inherits olds slot _ found)
      | supplied _ _ _ made =>
        exact List.mem_singleton.mp present ▸ hand _ _ _ _ _ (by simp) made
      | skipped _ _ => cases present
    · exact ih (fun slot present => hands slot (List.mem_cons_of_mem _ present)) there
        result present

variable (inherits : Inherits assembler old new)

include inherits

theorem inside?_inherits {kind : ContainerKind} {before? : Option Entry}
    (olds : ∀ before ∈ before?, old before) :
    ∀ members ∈ inside? kind before?, ∀ member ∈ members, old member := by
  intro members held
  cases before? with
  | none => cases kind <;> cases held
  | some before => exact inherits.inside kind before members (olds before rfl) held

/-- By induction on the slot. -/
theorem hands (slot : Slot) (separate : Separate slot) : Hands assembler old new slot := by
  induction slot using Slot.induct with
  | file name source =>
    intro scope path before? result effort olds made
    rcases file_eq_ok.mp made with ⟨current, _⟩ | ⟨_, _, content, read, rfl⟩
    · exact inherits.kept result (olds result (mem_remembered (current?_eq_some current).1))
    · exact inherits.file name source content read
  | failed kind name touches fault =>
    intro scope path before? result effort _ made
    exact absurd made not_container_error
  | container kind name touches slots ih =>
    intro scope path before? result effort olds made
    obtain ⟨members, work, wrapping, built, wrapped, _⟩ := container_eq_ok.mp made
    obtain ⟨distinct, separateEach⟩ := separate.inside
    have remembers : ∀ before ∈ remembered scope before?, old before := fun before held =>
      olds before (mem_remembered held)
    have names : (members.map Entry.name).Nodup := (entries_names built).1.nodup distinct
    refine inherits.wrap kind _ name _ members result wrapping remembers names ?_ wrapped
    exact entries_inherit (fun slot present => ih slot present (separateEach slot present))
      inherits.kept (inside?_inherits inherits remembers) built

end Inherits

/-- The entries of an output inherit from those that it had. -/
theorem output_inherits {old new : Entry → Prop} (inherits : Inherits assembler old new)
    {plan : Plan}
    {previous : Option (List Entry)} (olds : ∀ members ∈ previous, ∀ member ∈ members, old member)
    {results : List Entry} {effort : Effort}
    (built : assembler.output scope plan previous = .ok (results, effort)) :
    (results.map Entry.name).Nodup ∧ ∀ result ∈ results, new result := by
  obtain ⟨slots, resolved, walked⟩ := output_eq_ok.mp built
  obtain ⟨distinct, separate⟩ := Resolver.slots_separate resolved
  exact ⟨(entries_names walked).1.nodup distinct, entries_inherit
    (fun slot present => hands inherits slot (separate slot present)) inherits.kept olds walked⟩

end Depot.Assembler

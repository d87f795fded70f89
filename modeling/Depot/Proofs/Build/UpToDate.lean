import Depot.Proofs.Build.Repeat

set_option autoImplicit false

namespace Depot

def Effort.reusing (count : Nat) : Effort := ⟨0, count, 0⟩

namespace Slot

mutual

def files : Slot → Nat
  | .file .. => 1
  | .container _ _ _ (.error _) => 0
  | .container _ _ _ (.ok slots) => filesEach slots

def filesEach : List Slot → Nat
  | [] => 0
  | slot :: rest => files slot + filesEach rest

end

end Slot

namespace Assembler

open Slot (Separate files filesEach)

variable {assembler : Assembler} {scope : Scope} {path : Path} {slot : Slot} {slots : List Slot}

/-- Unless only what depends on one source is built again, all slots are built. -/
theorem Contributes.of_whole {previous : Option (List Entry)} {part : List Entry} {effort : Effort}
    (whole : scope.isChange = false)
    (contributes : Contributes assembler scope path previous slot part effort) :
    ∃ entry, part = [entry] ∧
      assembler.entry scope path (former previous slot) slot = .ok (entry, effort) := by
  have all : assembler.reached scope slot.touches = .ok true := by
    cases scope with
    | everything => rfl
    | stale => rfl
    | changed source => cases whole
  cases contributes with
  | built _ made => exact ⟨_, rfl, made⟩
  | kept unreached _ => cases all.symm.trans unreached
  | supplied unreached _ _ _ => cases all.symm.trans unreached
  | skipped unreached _ => cases all.symm.trans unreached

/-- The entry of a file has the stamp of its source, which is not deleted. -/
theorem file_stamped {name : Name} {source : Source} {before? : Option Entry} {result : Entry}
    {effort : Effort}
    (made : assembler.entry scope path before? (.file name source) = .ok (result, effort)) :
    assembler.workspace.isLive source = true ∧
      ∃ name content digest,
        result = .file name content (assembler.workspace.stamp source) digest := by
  rcases file_eq_ok.mp made with ⟨current, _⟩ | ⟨_, _, content, read, rfl⟩
  · exact (current?_eq_some current).2
  · exact ⟨(Workspace.read_eq_ok.mp read).1, _, _, _, rfl⟩

/-- What a build made of a slot is what a build by stamps makes of it next, without any work but to
use the files again. -/
def UpToDate (assembler : Assembler) (slot : Slot) : Prop :=
  ∀ scope path before? entry work, scope.isChange = false →
    assembler.entry scope path before? slot = .ok (entry, work) →
    assembler.entry .stale path (some entry) slot = .ok (entry, .reusing slot.files)

/-- The entries that a build gave to some slots are found again under their names. -/
theorem entries_up_to_date (whole : scope.isChange = false) {previous : Option (List Entry)}
    {results : List Entry} {effort : Effort}
    (built : assembler.entries scope path previous slots = .ok (results, effort))
    (distinct : (slots.map Slot.name).Nodup) (each : ∀ slot ∈ slots, UpToDate assembler slot) :
    assembler.entries .stale path (some results) slots =
      .ok (results, .reusing (filesEach slots)) := by
  have again : ∀ slot ∈ slots, ∀ part work, Contributes assembler scope path previous
    slot part work →
      ∃ work', Contributes assembler .stale path (some results) slot part work' ∧
        work' = .reusing slot.files := by
    intro slot present part work contributes
    obtain ⟨part', work', contributes', found⟩ := entries_named? built distinct present
    obtain rfl := contributes.unique contributes'
    obtain ⟨entry, rfl, made⟩ := contributes.of_whole whole
    have there : former (some results) slot = some entry := found
    exact ⟨_, .built rfl (there ▸ each slot present scope path _ entry work whole made), rfl⟩
  obtain ⟨_, rebuilt, rfl⟩ := entries_again (fun slot work => work = .reusing slot.files)
    (fun slots work => work = .reusing (filesEach slots)) rfl (by rintro _ _ _ _ rfl rfl; rfl) again
      built
  exact rebuilt

/-- By induction on the slot. -/
theorem up_to_date (slot : Slot) (separate : Separate slot) : UpToDate assembler slot := by
  induction slot using Slot.induct with
  | file name source =>
    intro scope path before? entry work _ made
    obtain ⟨alive, _, _, _, rfl⟩ := file_stamped made
    exact file_eq_ok.mpr (.inl ⟨if_pos ⟨alive, rfl⟩, rfl⟩)
  | failed kind name touches fault =>
    intro scope path before? entry work _ made
    exact absurd made not_container_error
  | container kind name touches slots ih =>
    intro scope path before? entry work whole made
    obtain ⟨members, inner, wrapping, built, wrapped, rfl⟩ := container_eq_ok.mp made
    obtain ⟨distinct, separateEach⟩ := separate.inside
    have again := entries_up_to_date whole built distinct
      fun slot present => ih slot present (separateEach slot present)
    have inside : inside? kind (remembered .stale (some entry)) = some members :=
      (wrap_eq_ok wrapped).2.2
    rw [← inside] at again
    exact container_eq_ok.mpr ⟨members, _, .none, again, wrap_again wrapped, rfl⟩

/-- An output that was just built is built again by stamps as it is. -/
theorem output_up_to_date (whole : scope.isChange = false) {plan : Plan}
    {previous : Option (List Entry)} {results : List Entry} {effort : Effort}
    (built : assembler.output scope plan previous = .ok (results, effort)) :
    ∃ slots, assembler.resolver.slots plan = .ok slots ∧
      assembler.output .stale plan (some results) = .ok (results, .reusing (filesEach slots)) := by
  obtain ⟨slots, resolved, walked⟩ := output_eq_ok.mp built
  obtain ⟨distinct, separate⟩ := Resolver.slots_separate resolved
  have again := entries_up_to_date whole walked distinct
    fun slot present => up_to_date slot (separate slot present)
  exact ⟨slots, resolved, output_eq_ok.mpr ⟨slots, resolved, again⟩⟩

end Assembler

end Depot

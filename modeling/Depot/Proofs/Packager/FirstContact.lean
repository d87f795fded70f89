import Depot.Proofs.Build.Restriction
import Depot.Proofs.Packager.Everything
import Depot.Proofs.Packager.Frame

set_option autoImplicit false

namespace Depot.Packager

open Slot (At ReachedThrough restrict restrictEach)

variable {job : Job} {packager : Packager} {disk : Disk} {artifact : Artifact} {report : Report}

/-- An artifact without an output gets what is built for the change, unless this is nothing: then it
is not told of. -/
theorem UpdatedAlone.anew {before after : Packager}
    (alone : UpdatedAlone job before after artifact (.ok report))
    (change : job.scope.isChange = true) (absent : before.current? artifact = none) :
    ∃ entries effort,
      (job.assembler before.config.compression artifact.name).output job.scope artifact.plan none =
        .ok (entries, effort) ∧
      (entries = [] → report = .none ∧
        after.outputs.find? artifact.name = before.outputs.find? artifact.name) ∧
      (entries ≠ [] → report.updated = [artifact.name] ∧ report.unchanged = [] ∧
        after.current? artifact = some entries) := by
  obtain ⟨packager, disk, config, same, updated, stored⟩ := alone
  rw [current?_congr same.symm] at absent
  rw [← config, ← same]
  have ends := update_ends job packager disk artifact
  generalize update job packager disk artifact = outcome at updated stored ends
  cases ends with
  | unbuilt _ => cases updated
  | @nothing effort _ _ built =>
    cases updated
    exact ⟨[], effort, built, fun _ => ⟨rfl, stored⟩, fun held => absurd rfl held⟩
  | refused _ _ => cases updated
  | @stored _ entries effort _ built needed =>
    cases updated
    rw [absent] at built needed
    refine ⟨entries, effort, built, fun empty => ?_, fun _ => ?_⟩
    · exact absurd (needed rfl empty) (by rw [change]; simp)
    · rw [absent, current?_congr stored, current?_store]
      exact ⟨rfl, rfl, rfl⟩

/-- A run for one change that succeeds gives an artifact without an output the part that the change
reaches. There is an entry at exactly those positions of slots at which the change reaches the slot
and all slots around it, and the entry is the one of a build of everything in which the slot holds
nothing else. So the output is what remains of the one that a build of everything gives. If the
change reaches nothing at the top, the artifact gets no output and is not told of. -/
theorem run_first_contact {source : Source} {after : Packager} {disk' : Disk}
    (succeeded : run (job.changing source) packager disk = (.ok report, after, disk'))
    (registered : artifact ∈ job.registry.artifacts.values)
    (absent : packager.current? artifact = none) :
    ∃ slots,
      (job.assembler packager.config.compression artifact.name).resolver.slots artifact.plan =
        .ok slots ∧
      ((∀ slot ∈ slots, job.workspace.reaches source slot.touches = .ok false) →
        after.outputs.find? artifact.name = packager.outputs.find? artifact.name ∧
          artifact.name ∉ report.updated ∧ artifact.name ∉ report.unchanged) ∧
      ((∃ slot ∈ slots, job.workspace.reaches source slot.touches ≠ .ok false) →
        artifact.name ∈ report.updated ∧ artifact.name ∉ report.unchanged ∧
        ∃ entries, after.current? artifact = some entries ∧
          (job.assembler packager.config.compression artifact.name).completeEach?
            (restrictEach job.workspace source slots) = some entries ∧
          (∀ names entry, Hierarchy.find? entries ⟨names⟩ = some entry ↔
            ∃ slot, At slots names slot ∧ ReachedThrough job.workspace source slots names ∧
              (job.assembler packager.config.compression artifact.name).complete?
                (slot.restrict job.workspace source) = some entry) ∧
          ∀ blank full,
            (run (job.everything job.workspace) (start packager.config) blank).2.1.current?
              artifact =
              some full →
            (job.assembler packager.config.compression artifact.name).Remains source slots full
              entries) := by
  have reported := run_own (congrArg Prod.fst succeeded) registered
  rw [succeeded] at reported
  obtain ⟨own, alone, updated, unchanged⟩ := reported
  obtain ⟨entries, effort, built, empty, filled⟩ := alone.anew rfl absent
  obtain ⟨slots, resolved, walked⟩ := Assembler.output_eq_ok.mp built
  obtain ⟨restricted, positions, remains⟩ := Assembler.output_anew resolved built
  have nothing := Assembler.entries_eq_nil_iff walked
  refine ⟨slots, resolved, fun unreached => ?_, fun reached => ?_⟩
  · obtain ⟨rfl, stays⟩ := empty (nothing.mpr unreached)
    rw [updated, unchanged]
    exact ⟨stays, List.not_mem_nil, List.not_mem_nil⟩
  · have some : entries ≠ [] := by
      rintro rfl
      obtain ⟨slot, present, reaches⟩ := reached
      exact reaches (nothing.mp rfl slot present)
    obtain ⟨listed, none, now⟩ := filled some
    rw [updated, unchanged, listed, none]
    refine ⟨List.mem_cons_self, List.not_mem_nil, entries, now, restricted, positions, ?_⟩
    intro blank full whole
    obtain ⟨output, found, rfl⟩ := Option.map_eq_some_iff.mp (output?_of_current? whole)
    rcases run_outputs _ _ _ found with kept | ⟨owner, work, known, _, complete⟩
    · cases kept
    · have held := Registry.find?_eq_some.mpr ⟨registered, rfl⟩
      obtain rfl : owner = artifact := Option.some.inj (known.symm.trans held)
      exact remains _ (Assembler.output_everything.mp ⟨work, complete⟩)

end Depot.Packager

namespace Depot.Sample

open Packager (run start)

/-- The first that a packager hears of the directory is a change to the second file. -/
def contacted : Except PackagerFault Report × Packager × Disk :=
  run (refiled.changing ⟨0, 2⟩) (start .standard) .blank

end Depot.Sample

namespace Depot.Packager

open Slot (At ReachedThrough restrict)

open Sample in
theorem run_first_contact_bundle :
    ∃ entries, contacted.2.1.output? "app" = some entries ∧
      Hierarchy.find? entries ⟨[bundle, left]⟩ = none ∧
      ∃ entry, Hierarchy.find? entries ⟨[bundle, right]⟩ = some entry ∧
        entry.bytes? = some newText := by
  let artifact : Artifact := ⟨"app", bundling, 1⟩
  have succeeded : contacted.1 = .ok ⟨["app"], [], ⟨1, 0, 0⟩, 0⟩ := by decide +kernel
  have registered : artifact ∈ refiled.registry.artifacts.values := List.mem_singleton.mpr rfl
  have absent : (start .standard).current? artifact = none := by decide +kernel
  have leftMissed : refiled.workspace.reaches ⟨0, 2⟩ [.file ⟨0, 1⟩] ≠ .ok true := by decide +kernel
  have rightReached : refiled.workspace.reaches ⟨0, 2⟩ [.file ⟨0, 2⟩] = .ok true := by
    decide +kernel
  have bundleReached : refiled.workspace.reaches ⟨0, 2⟩ [.file ⟨0, 1⟩, .file ⟨0, 2⟩] = .ok true :=
    by decide +kernel
  obtain ⟨slots, resolved, _, reached⟩ :=
    run_first_contact (Prod.ext succeeded rfl) registered absent
  obtain rfl := Except.ok.inj (resolved.symm.trans refiled_slots)
  obtain ⟨_, _, entries, now, _, positions, _⟩ :=
    reached ⟨_, List.mem_cons_self, by rw [Slot.touches, bundleReached]; simp⟩
  have distinct : (bundleSlots.map Slot.name).Nodup := by decide
  have inside : .container .directory bundle [.file ⟨0, 1⟩, .file ⟨0, 2⟩]
      (.ok [.file left ⟨0, 1⟩, .file right ⟨0, 2⟩]) ∈ bundleSlots := List.mem_cons_self
  refine ⟨entries, output?_of_current? now, ?_, ?_⟩
  · refine Option.eq_none_iff_forall_ne_some.mpr fun entry found => ?_
    obtain ⟨slot, _, through, _⟩ := (positions _ _).mp found
    obtain ⟨_, through⟩ := (Slot.reachedThrough_inside distinct inside).mp through
    exact leftMissed ((Slot.reachedThrough_top (by decide) List.mem_cons_self).mp through)
  · have read : refiled.workspace.read ⟨0, 2⟩ = .ok newText := by decide +kernel
    have place : At bundleSlots [bundle, right] (.file right ⟨0, 2⟩) :=
      .inside inside (.top (List.mem_cons_of_mem _ List.mem_cons_self))
    have through : ReachedThrough refiled.workspace ⟨0, 2⟩ bundleSlots [bundle, right] :=
      (Slot.reachedThrough_inside distinct inside).mpr ⟨bundleReached,
        (Slot.reachedThrough_top (by decide) (List.mem_cons_of_mem _ List.mem_cons_self)).mpr
          rightReached⟩
    have whole : (refiled.assembler .none "app").complete?
        ((Slot.file right ⟨0, 2⟩).restrict refiled.workspace ⟨0, 2⟩) =
          some (.ofFile refiled.hash right newText (refiled.workspace.stamp ⟨0, 2⟩)) := by
      rw [restrict]
      exact Assembler.complete?_source.mpr ⟨newText, read, rfl⟩
    exact ⟨_, (positions _ _).mpr ⟨_, place, through, whole⟩, rfl⟩

end Depot.Packager

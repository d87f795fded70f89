import Depot.Proofs.Build.Faults
import Depot.Proofs.Packager.Frame
import Depot.Proofs.Packager.Stamps

set_option autoImplicit false

namespace Depot

namespace Packager

open Entry (Sealed Encoded)

variable {job : Job} {packager : Packager} {disk : Disk} {artifact : Artifact}

/-- In every output, siblings have distinct names and entries carry the digests of what they hold.
-/
def Closed (hash : Hash) (packager : Packager) : Prop :=
  ∀ name output, packager.outputs.find? name = some output →
    (output.entries.map Entry.name).Nodup ∧ ∀ entry ∈ output.entries, Sealed hash entry

theorem Closed.current? {hash : Hash} (closed : Closed hash packager) :
    ∀ members ∈ packager.current? artifact, ∀ member ∈ members, Sealed hash member := by
  intro members current
  obtain ⟨output, found, rfl⟩ := Option.map_eq_some_iff.mp (output?_of_current? current)
  exact (closed artifact.name output found).2

/-- One run keeps all outputs closed, whatever fails in it. -/
theorem Closed.run (closed : Closed job.hash packager) (disk : Disk) :
    Closed job.hash (run job packager disk).2.1 := by
  intro name output found
  rcases run_outputs job packager disk found with kept | ⟨artifact, effort, _, _, built⟩
  · exact closed name output kept
  · exact Assembler.output_inherits (Assembler.sealed_inherits _) closed.current? built

/-- An update does not fail for an archive that cannot be written. -/
theorem update_early
    (closed : ∀ members ∈ packager.current? artifact, ∀ member ∈ members, Sealed job.hash member)
    {fault : BuildFault} (failed : (update job packager disk artifact).1 = .error (.build fault)) :
    fault.Early := by
  have ends := update_ends job packager disk artifact
  generalize update job packager disk artifact = outcome at failed ends ⊢
  cases ends with
  | unbuilt unbuilt =>
    cases failed
    exact Assembler.output_early closed unbuilt
  | nothing _ _ _ => cases failed
  | refused _ _ => cases failed
  | stored _ _ _ => cases failed

/-- No artifact of a run fails for an archive that cannot be written. -/
theorem Closed.updateEach_early (closed : Closed job.hash packager) (disk : Disk)
    {fault : BuildFault}
    (failed : .error (.build fault) ∈
      (updateEach job packager disk job.registry.artifacts.values).1) : fault.Early := by
  obtain ⟨_, _, each⟩ := @updateEach_alone job _ job.registry.names_nodup packager disk
  obtain ⟨artifact, _, packager', disk', _, same, result, _⟩ := exists_of_mem_right each failed
  refine update_early (fun members current => ?_) result
  rw [current?_congr same] at current
  exact closed.current? members current

end Packager

namespace Project

open Packager (Job Closed)

variable {tools : Job}

/-- A whole history keeps all outputs closed, by induction on what happened. -/
theorem run_closed {project : Project} (closed : Closed tools.hash project.packager)
    (history : List Act) : Closed tools.hash (project.run tools history).packager := by
  induction history generalizing project with
  | nil => exact closed
  | cons act rest ih =>
    refine ih ?_
    cases act with
    | command request => exact closed
    | run registry scope disk =>
      exact @Closed.run (project.job tools registry scope) project.packager closed disk

theorem start_closed (hash : Hash) (volumes : Nat) (config : Config) :
    Closed hash (start volumes config).packager :=
  fun _ _ found => nomatch found

end Project

namespace Packager

open Entry (Sealed Encoded)

/-- After anything that happened in a project, with runs that fail among it, every output has
distinct names at every depth and the digests of what it holds, and its archives have the bytes that
their members give, unless byte strings collide. No run fails for an archive that cannot be written.
-/
theorem outputs_represent (tools : Job) (volumes : Nat) (config : Config) (history : List Act) :
    let begun := Project.start volumes config
    let project := begun.run tools history
    (∀ name output, project.packager.outputs.find? name = some output →
      (output.entries.map Entry.name).Nodup ∧
      (∀ entry ∈ output.entries, Sealed tools.hash entry) ∧
      ((∀ content, (tools.hash content).bytes.length = 32) →
        tools.hash.Separates (begun.hashedAlong tools history) →
          ∀ entry ∈ output.entries, Encoded tools.codec config.compression entry)) ∧
    ∀ registry scope disk,
      let job := project.job tools registry scope
      (∀ result ∈ (updateEach job project.packager disk registry.artifacts.values).1,
        ∀ artifact path written, result ≠ .error (.build (.archive artifact path written))) ∧
      ∀ artifact path written,
        (run job project.packager disk).1 ≠ .error (.build (.archive artifact path written)) := by
  intro begun project
  have closed := @Project.run_closed tools _ (Project.start_closed _ volumes config) history
  constructor
  · intro name output found
    obtain ⟨distinct, each⟩ := closed name output found
    refine ⟨distinct, each, fun lengths separates entry present => ?_⟩
    have blank : Sound tools (begun.seen tools history) (begun.hashedAlong tools history)
        begun.packager := fun _ _ found => nomatch found
    obtain ⟨sound, sameConfig⟩ := Project.run_sound lengths separates (List.Subset.refl _)
      (List.Subset.refl _) blank
    have encoded := (sound name output found entry present).encoded
    rw [sameConfig] at encoded
    exact encoded
  · intro registry scope disk job
    have early : ∀ fault, .error (.build fault) ∈
        (updateEach job project.packager disk registry.artifacts.values).1 → fault.Early :=
      fun fault failed => @Closed.updateEach_early job project.packager closed disk fault failed
    constructor
    · rintro result present artifact path written rfl
      exact (early _ present).ne_archive artifact path written rfl
    · intro artifact path written failed
      exact (early _ (summarize_eq_error failed)).ne_archive artifact path written rfl

end Packager

namespace Sample

/-- A file is packaged into an archive, when it is said to have changed. -/
def archiving : List Act :=
  let plan : Plan := [.container .archive bundle [.leaf (.file ⟨0, 2⟩)]]
  filing.map .command ++ [.run (single plan).registry (.changed ⟨0, 2⟩) .blank]

def archived : Project :=
  (Project.start 1 .standard).run (single []) archiving

end Sample

namespace Packager

open Sample
open Entry (Sealed Encoded)

theorem outputs_represent_archived :
    ∃ output, archived.packager.outputs.find? "app" = some output ∧
      ∀ entry ∈ output.entries, Sealed Digest.blake3 entry ∧ Encoded .stored .none entry := by
  have separates : (single []).hash.Separates
      ((Project.start 1 .standard).hashedAlong (single []) archiving) := by
    simp only [archiving, single, Digest.blake3_eq_quick]
    decide +kernel
  obtain ⟨represented, _⟩ := outputs_represent (single []) 1 .standard archiving
  obtain ⟨output, found⟩ : ∃ output, archived.packager.outputs.find? "app" = some output :=
    Option.isSome_iff_exists.mp (by decide +kernel)
  obtain ⟨_, closed, encoded⟩ := represented "app" output found
  exact ⟨output, found, fun entry present =>
    ⟨closed entry present, encoded Blake3.length_hash separates entry present⟩⟩

end Packager

end Depot

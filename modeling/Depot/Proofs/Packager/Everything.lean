import Depot.Proofs.Build.Output
import Depot.Proofs.Packager.Run

set_option autoImplicit false

namespace Depot.Packager

/-- The byte strings that were hashed for the outputs of a packager. -/
def hashed (packager : Packager) : List Bytes :=
  packager.outputs.values.flatMap fun output =>
    Entry.listing output.entries :: Entry.hashedEach output.entries

/-- A build of everything can build every registered artifact. -/
def Job.Buildable (job : Job) (compression : Archive.Compression) : Prop :=
  ∀ artifact ∈ job.registry.artifacts.values, ∃ full,
    (job.assembler compression artifact.name).full? artifact.plan = some full

variable {job : Job} {packager : Packager} {disk : Disk} {artifact : Artifact}

theorem hashed_current {entries : List Entry}
    (current : packager.current? artifact = some entries) :
    (Entry.whole job.hash entries).hashed ⊆ packager.hashed := by
  obtain ⟨output, found, rfl⟩ := Option.map_eq_some_iff.mp (output?_of_current? current)
  intro string held
  exact List.mem_flatMap.mpr ⟨output, NameMap.mem_values found, held⟩

/-- A build of everything that succeeds gives each artifact its full output. -/
theorem run_everything (everything : job.scope = .everything) {report : Report}
    (succeeded : (run job packager disk).1 = .ok report) :
    (∀ artifact ∈ job.registry.artifacts.values, ∃ entries,
      (job.assembler packager.config.compression artifact.name).full? artifact.plan = some entries ∧
        (run job packager disk).2.1.current? artifact = some entries) ∧
      (run job packager disk).2.1.config = packager.config ∧
      ∀ name, job.registry.find? name = none → (run job packager disk).2.1.output? name = none := by
  obtain ⟨results, summary, each, config, others⟩ := run_alone job packager disk
  refine ⟨fun artifact registered => ?_, config, fun name absent =>
    by rw [output?, others name absent]; rfl⟩
  obtain ⟨result, present, packager', disk', config', same, updated, after⟩ :=
    exists_of_mem_left each registered
  obtain ⟨report', ok⟩ := summarize_eq_ok.mp ⟨report, summary.symm.trans succeeded⟩ result present
  obtain ⟨entries, effort, built, stored⟩ := update_everything everything (updated.trans ok)
  refine ⟨entries, ?_, ?_⟩
  · rw [← config']
    exact Assembler.output_everything.mp ⟨effort, built⟩
  · rw [stored] at after
    rw [current?_congr after, current?_store]

/-- An update of everything that publishes nothing stores the full output, if there is one. -/
theorem update_full (everything : job.scope = .everything)
    (unpublished : packager.config.outputDirectory = none) {full : List Entry}
    (complete : (job.assembler packager.config.compression artifact.name).full? artifact.plan =
      some full) :
    ∃ report disk', update job packager disk artifact =
      (.ok report, packager.store artifact full, disk') := by
  obtain ⟨effort, built⟩ := (@Assembler.output_everything
    (job.assembler packager.config.compression artifact.name) artifact.plan
    (packager.current? artifact) full).mpr complete
  rcases @update_built job packager disk artifact full effort (everything ▸ built)
    (.inr everything) with stored | ⟨directory, _⟩
  · exact stored
  · exact absurd unpublished directory

/-- An update of everything that publishes nothing succeeds if there is a full output. -/
theorem update_succeeds_iff (everything : job.scope = .everything)
    (unpublished : packager.config.outputDirectory = none) :
    (∃ report, (update job packager disk artifact).1 = .ok report) ↔
      ((job.assembler packager.config.compression artifact.name).full? artifact.plan).isSome =
        true := by
  rw [Option.isSome_iff_exists]
  constructor
  · intro ⟨report, succeeded⟩
    obtain ⟨entries, effort, built, _⟩ := update_everything everything succeeded
    exact ⟨entries, Assembler.output_everything.mp ⟨effort, built⟩⟩
  · intro ⟨full, complete⟩
    obtain ⟨report, disk', updated⟩ := update_full everything unpublished complete
    exact ⟨report, congrArg Prod.fst updated⟩

/-- A build of everything that publishes nothing succeeds if every artifact can be built. -/
theorem run_everything_buildable (everything : job.scope = .everything)
    (unpublished : packager.config.outputDirectory = none)
    (buildable : job.Buildable packager.config.compression) :
    ∃ report, (run job packager disk).1 = .ok report := by
  obtain ⟨results, summary, each, _⟩ := run_alone job packager disk
  rw [summary]
  refine summarize_eq_ok.mpr fun result present => ?_
  obtain ⟨artifact, registered, packager', disk', config, _, updated, _⟩ :=
    exists_of_mem_right each present
  rw [← updated]
  refine (update_succeeds_iff everything (config ▸ unpublished)).mpr ?_
  rw [config]
  exact Option.isSome_iff_exists.mpr (buildable artifact registered)

end Depot.Packager

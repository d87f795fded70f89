import Depot.Proofs.Build.UpToDate
import Depot.Proofs.Packager.Frame
import Depot.Proofs.Packager.Minimal
import Depot.Proofs.Packager.Repeat

set_option autoImplicit false

namespace Depot

/-- What is told of an artifact that is up to date: some files were used again, and nothing else was
done. -/
def Report.upToDate (name : String) (files : Nat) : Report where
  updated := []
  unchanged := [name]
  effort := .reusing files
  written := 0

namespace Packager

open Slot (filesEach)

variable {job : Job} {packager : Packager} {disk : Disk} {artifact : Artifact} {report : Report}

def Job.stale (job : Job) : Job :=
  { job with scope := .stale }

/-- How many places for files an artifact has, in its expansion. -/
def Job.files (job : Job) (artifact : Artifact) : Nat :=
  filesEach (job.expansion artifact)

/-- Storing an output that is there and published changes nothing. -/
theorem store_same {entries : List Entry} (current : packager.current? artifact = some entries)
    (published : artifact.name ∉ packager.unsynced) :
    packager.store artifact entries = packager := by
  have others : packager.unsynced.filter (· ≠ artifact.name) = packager.unsynced :=
    List.filter_eq_self.mpr fun name doubted =>
      decide_eq_true fun same : name = artifact.name => published (same ▸ doubted)
  rw [store, NameMap.insert_same (current?_eq_some.mp current), others]

theorem retain_retain (registry : Registry) :
    (packager.retain registry).retain registry = packager.retain registry := by
  simp [retain, NameMap.filter, List.filter_filter]

/-- An update of an output that is published, and that is built as it is, does nothing. -/
theorem update_same {entries : List Entry} {effort : Effort}
    (current : packager.current? artifact = some entries)
    (published : artifact.name ∉ packager.unsynced)
    (built : (job.assembler packager.config.compression artifact.name).output
      job.scope artifact.plan
      (some entries) = .ok (entries, effort)) (disk : Disk) :
    update job packager disk artifact =
      (.ok { updated := [], unchanged := [artifact.name], effort, written := 0 },
        packager, disk) := by
  have untouched := publish_unchanged published (some entries) entries disk
  simp [update, current, built, untouched, store_same current published]

/-- What a build of everything, or one by stamps, leaves of an artifact. -/
theorem run_builds (whole : job.scope.isChange = false)
    (succeeded : (run job packager disk).1 = .ok report)
    (registered : artifact ∈ job.registry.artifacts.values) :
    let built := (run job packager disk).2.1
    ∃ entries effort, built.current? artifact = some entries ∧ artifact.name ∉ built.unsynced ∧
      (job.assembler built.config.compression artifact.name).output job.scope artifact.plan
        (packager.current? artifact) = .ok (entries, effort) := by
  intro built
  obtain ⟨_, _, _, config, _⟩ := run_alone job packager disk
  obtain ⟨_, each, _⟩ := run_report succeeded
  obtain ⟨own, _, alone⟩ := exists_of_mem_left each registered
  have makes := alone.makes
  cases now : built.current? artifact with
  | none =>
    rw [now] at makes
    cases whole.symm.trans makes.of_none.2.1
  | some entries =>
    rw [now, ← config] at makes
    obtain ⟨effort, made⟩ := makes.built
    exact ⟨entries, effort, rfl, run_unsynced succeeded registered now, made⟩

/-- Updates that do nothing, by induction on the artifacts. -/
theorem updateEach_same {artifacts : List Artifact} {tell : Artifact → Report}
    (same : ∀ artifact ∈ artifacts,
      update job packager disk artifact = (.ok (tell artifact), packager, disk)) :
    updateEach job packager disk artifacts =
      (artifacts.map fun artifact => .ok (tell artifact), packager, disk) := by
  induction artifacts with
  | nil => rfl
  | cons first rest ih =>
    obtain ⟨here, later⟩ := List.forall_mem_cons.mp same
    simp [updateEach, here, ih later]

theorem summarize_up_to_date (files : Artifact → Nat) (artifacts : List Artifact) :
    summarize (artifacts.map fun artifact => .ok (Report.upToDate artifact.name (files artifact))) =
      .ok { updated := [], unchanged := artifacts.map Artifact.name,
            effort := .reusing (artifacts.map files).sum, written := 0 } := by
  induction artifacts with
  | nil => rfl
  | cons first rest ih =>
    simp only [List.map_cons, summarize, ih]
    rfl

/-- After a build of everything, or one by stamps, that succeeded, the next run by stamps succeeds
too: it reads no file, uses one file of the outputs again for each place of a file in the artifacts,
encodes no archive, writes nothing, and lists all artifacts as unchanged. The packager stays as it
is, with all outputs, and so does the disk, whatever became of it in between. -/
theorem run_up_to_date {built : Packager} {builtDisk : Disk} (whole : job.scope.isChange = false)
    (succeeded : run job packager disk = (.ok report, built, builtDisk)) :
    (∀ artifact ∈ job.registry.artifacts.values,
      Resolver.slots ⟨job.workspace, job.registry, artifact.name⟩ artifact.plan =
        .ok (job.expansion artifact)) ∧
    ∀ disk', run job.stale built disk' =
      (.ok { updated := [], unchanged := job.registry.names,
             effort := { read := 0, reused := (job.registry.artifacts.values.map job.files).sum,
                         encoded := 0 }, written := 0 },
        built, disk') := by
  have ok : (run job packager disk).1 = .ok report := congrArg Prod.fst succeeded
  have each : ∀ artifact ∈ job.registry.artifacts.values, ∃ entries,
      built.current? artifact = some entries ∧ artifact.name ∉ built.unsynced ∧
      Resolver.slots ⟨job.workspace, job.registry, artifact.name⟩ artifact.plan =
        .ok (job.expansion artifact) ∧
      (job.stale.assembler built.config.compression artifact.name).output .stale artifact.plan
        (some entries) = .ok (entries, .reusing (job.files artifact)) := by
    intro artifact registered
    obtain ⟨entries, effort, current, published, made⟩ := run_builds whole ok registered
    rw [succeeded] at current published made
    obtain ⟨slots, resolved, again⟩ := Assembler.output_up_to_date whole made
    obtain rfl := Job.expansion_eq resolved
    exact ⟨entries, current, published, resolved, again⟩
  refine ⟨fun artifact registered => (each artifact registered).choose_spec.2.2.1, fun disk' => ?_⟩
  have same : ∀ artifact ∈ job.registry.artifacts.values, update job.stale built disk' artifact =
      (.ok (Report.upToDate artifact.name (job.files artifact)), built, disk') := by
    intro artifact registered
    obtain ⟨entries, current, published, _, again⟩ := each artifact registered
    exact @update_same job.stale _ _ _ _ current published again disk'
  have retained : built.retain job.registry = built := by
    have left : built = (updateEach job packager disk job.registry.artifacts.values).2.1.retain
        job.registry := congrArg (fun outcome => outcome.2.1) succeeded.symm
    rw [left, retain_retain]
  have names := job.registry.names_eq
  have registry : job.stale.registry = job.registry := rfl
  simp only [run, registry, updateEach_same same, summarize_up_to_date, retained, names]
  rfl

end Packager

namespace Sample

open Packager (Job run start)

/-- A project in which one artifact packs a file together with what another one holds. -/
def layering : Job :=
  { single [] with
    workspace := ((Sessions.start 1).run filing).workspace
    registry := ((Registry.empty.replace "lib" [.leaf (.file ⟨0, 1⟩)]).2.replace "app"
      [.container .archive bundle [.leaf (.artifact "lib"), .leaf (.file ⟨0, 2⟩)]]).2 }

def layered : Except PackagerFault Report × Packager × Disk :=
  run layering (start .standard) .blank

end Sample

namespace Packager

open Sample in
theorem run_up_to_date_layered :
    run layering.stale layered.2.1 layered.2.2 =
      (.ok ⟨[], ["app", "lib"], ⟨0, 3, 0⟩, 0⟩, layered.2.1, layered.2.2) := by
  have built : layered.1 = .ok ⟨["app", "lib"], [], ⟨3, 0, 1⟩, 0⟩ := by decide +kernel
  have files : (layering.registry.artifacts.values.map layering.files).sum = 3 := by decide +kernel
  have whole : run layering (start .standard) .blank =
      (.ok ⟨["app", "lib"], [], ⟨3, 0, 1⟩, 0⟩, layered.2.1, layered.2.2) := Prod.ext built rfl
  have again := (run_up_to_date rfl whole).2 layered.2.2
  rw [files] at again
  exact again

end Packager

end Depot

import Depot.Proofs.Build.Meaning
import Depot.Proofs.Packager.Everything

set_option autoImplicit false

namespace Depot.Packager

open Assembler (Means)

variable {job : Job} {packager : Packager} {disk : Disk}

/-- A run of everything that publishes nothing gives each artifact that can be built its full
output. -/
theorem run_full (everything : job.scope = .everything)
    (unpublished : packager.config.outputDirectory = none) {artifact : Artifact}
    (registered : artifact ∈ job.registry.artifacts.values) {full : List Entry}
    (complete : (job.assembler packager.config.compression artifact.name).full? artifact.plan =
      some full) :
    (run job packager disk).2.1.output? artifact.name = some full := by
  obtain ⟨results, _, each, _⟩ := run_alone job packager disk
  obtain ⟨result, _, packager', disk', config, _, _, after⟩ := exists_of_mem_left each registered
  obtain ⟨report, disk'', updated⟩ := @update_full job packager' disk' artifact everything
    (config ▸ unpublished) full (config ▸ complete)
  rw [updated] at after
  refine @output?_of_current? (run job packager disk).2.1 artifact full ?_
  rw [current?_congr after, current?_store]

/-- After any history, there is one output for each artifact whose expansion is as it should be, and
none for others. It is what the plan says, in terms of the sources and of the outputs of the
artifacts in the plan. Every run of everything that publishes nothing succeeds with just these
artifacts, as a whole if there are no others, and gives them these outputs, whatever the packager
had before. -/
theorem everything_means (job : Job) (volumes : Nat) (requests : List Request)
    (compression : Archive.Compression) :
    let now := job.everything ((Sessions.start volumes).run requests).workspace
    ∃ outputs : String → Option (List Entry),
      (∀ name, now.registry.find? name = none → outputs name = none) ∧
      (∀ artifact ∈ now.registry.artifacts.values,
        ((outputs artifact.name).isSome = true ↔
          Composable now.workspace now.registry artifact) ∧
        ∀ entries, outputs artifact.name = some entries →
          (entries.map Entry.name).Nodup ∧
            Means (now.assembler compression artifact.name) outputs artifact.plan entries) ∧
      ∀ packager disk, packager.config.compression = compression →
        packager.config.outputDirectory = none →
        List.Forall₂ (fun artifact result => (∃ report, result = .ok report) ↔
            Composable now.workspace now.registry artifact)
          now.registry.artifacts.values
            (updateEach now packager disk now.registry.artifacts.values).1 ∧
        ((∃ report, (run now packager disk).1 = .ok report) ↔
          ∀ artifact ∈ now.registry.artifacts.values,
            Composable now.workspace now.registry artifact) ∧
        ∀ artifact ∈ now.registry.artifacts.values, ∀ entries, outputs artifact.name =
          some entries →
          (run now packager disk).2.1.output? artifact.name = some entries := by
  intro now
  have trees : now.workspace.Trees :=
    (Workspace.run_evolves (Sessions.start_trees volumes) requests).later
  have full (artifact : Artifact) (registered : artifact ∈ now.registry.artifacts.values) :
      (now.assembler compression "").outputs artifact.name =
        (now.assembler compression artifact.name).full? artifact.plan := by
    rw [Assembler.outputs]
    exact congrArg (Option.bind · _) (Registry.find?_eq_some.mpr ⟨registered, rfl⟩)
  have composable (artifact : Artifact) :
      ((now.assembler compression artifact.name).full? artifact.plan).isSome = true ↔
        Composable now.workspace now.registry artifact :=
    @Assembler.full?_isSome (now.assembler compression artifact.name) trees artifact rfl
  refine ⟨(now.assembler compression "").outputs, fun name absent => ?_,
    fun artifact registered => ?_, ?_⟩
  · rw [Assembler.outputs]
    exact congrArg (Option.bind · _) absent
  · rw [full artifact registered]
    refine ⟨composable artifact, fun entries complete => ?_⟩
    obtain ⟨yields, distinct⟩ :=
      (@Assembler.full?_eq_some (now.assembler compression artifact.name) _ entries trees).mp
        complete
    exact ⟨distinct, yields.means trees distinct⟩
  · rintro packager disk rfl unpublished
    have each : List.Forall₂ (fun artifact result => (∃ report, result = .ok report) ↔
          Composable now.workspace now.registry artifact)
        now.registry.artifacts.values
          (updateEach now packager disk now.registry.artifacts.values).1 := by
      obtain ⟨_, _, each⟩ := @updateEach_alone now _ now.registry.names_nodup packager disk
      refine each.imp fun artifact result alone => ?_
      obtain ⟨packager', disk', config, _, updated, _⟩ := alone
      rw [← updated, update_succeeds_iff rfl (config ▸ unpublished), config]
      exact composable artifact
    refine ⟨each, summarize_iff each, fun artifact registered entries built => ?_⟩
    rw [full artifact registered] at built
    exact run_full rfl unpublished registered built

end Depot.Packager

namespace Depot.Sample

def backup : Name := ⟨Bytes.ofString "backup", by decide⟩

/-- A project in which one artifact includes another one and copies a directory. -/
def nested : Packager.Job where
  workspace := []
  registry := ((Registry.empty.replace "lib" [.leaf (.file ⟨0, 1⟩)]).2.replace "app"
    [.leaf (.artifact "lib"), .container .directory backup [.leaf (.copy ⟨0, 0⟩)]]).2
  hash := Digest.blake3
  scope := .everything

/-- The job for two files in the copied directory. -/
def filed : Packager.Job :=
  nested.everything ((Sessions.start 1).run filing).workspace

end Depot.Sample

namespace Depot.Packager

open Sample in
theorem everything_means_nested :
    ∃ library copies,
      (run filed (start .standard) .blank).2.1.output? "lib" = some library ∧
      (run filed (start .standard) .blank).2.1.output? "app" =
        some (library ++ [.ofDirectory Digest.blake3 backup copies]) ∧
      Mirrors filed.workspace Digest.blake3 ⟨0, 0⟩ copies := by
  obtain ⟨outputs, _, each, runs⟩ := everything_means nested 1 filing .none
  obtain ⟨_, succeeds, gives⟩ := runs (start .standard) .blank rfl rfl
  let app : Artifact :=
    ⟨"app", [.leaf (.artifact "lib"), .container .directory backup [.leaf (.copy ⟨0, 0⟩)]], 2⟩
  let lib : Artifact := ⟨"lib", [.leaf (.file ⟨0, 1⟩)], 1⟩
  have appRegistered : app ∈ filed.registry.artifacts.values := List.mem_cons_self
  have libRegistered : lib ∈ filed.registry.artifacts.values :=
    List.mem_cons_of_mem _ List.mem_cons_self
  have ran : (run filed (start .standard) .blank).1 = .ok ⟨["app", "lib"], [], ⟨4, 0, 0⟩, 0⟩ := by
    decide +kernel
  have built := succeeds.mp ⟨_, ran⟩ app appRegistered
  obtain ⟨appBuilt, appMeans⟩ := each app appRegistered
  obtain ⟨entries, whole⟩ := Option.isSome_iff_exists.mp (appBuilt.mpr built)
  obtain ⟨_, means⟩ := appMeans entries whole
  have now := gives app appRegistered entries whole
  cases means with
  | @artifact _ _ library _ own others =>
    cases others with
    | @directory _ _ _ members _ inner none =>
      cases none
      cases inner with
      | @copy _ _ copies _ mirrors none =>
        cases none
        rw [List.append_nil] at now
        exact ⟨library, copies, gives lib libRegistered library own, now, mirrors⟩

end Depot.Packager

import Depot.Proofs.Build.Blame
import Depot.Proofs.Build.Blocked
import Depot.Proofs.Packager.Atomicity
import Depot.Proofs.Packager.Frame

set_option autoImplicit false

namespace Depot

def BuildFault.Referential : BuildFault → Prop
  | unknownArtifact _ | cycle _ => True
  | unreadable .. | duplicateEntry .. | archive .. => False

/-- All faults of references come from the expansion of the artifact. -/
theorem Assembler.stuck_of_output {assembler : Assembler} {artifact : Artifact}
    (same : artifact.name = assembler.artifact) {scope : Scope} {previous : Option (List Entry)}
    {fault : BuildFault} (failed : assembler.output scope artifact.plan previous = .error fault)
    (referential : fault.Referential) : assembler.registry.StuckWith artifact fault := by
  let may : BuildFault → Prop := fun fault =>
    fault.Referential → assembler.registry.StuckWith artifact fault
  have covers : BuildFault.Covers may assembler.registry [assembler.artifact] artifact.plan := by
    refine ⟨fun _ _ => False.elim, fun _ _ => False.elim,
      fun chain name fault occurs failed _ => ?_⟩
    exact ⟨chain, name, same ▸ occurs, failed⟩
  have inherits : Inherits assembler (fun _ => True) fun _ => True :=
    ⟨fun _ _ => trivial, fun _ _ _ _ _ _ _ => trivial, fun _ _ _ _ => trivial,
      fun _ _ _ _ _ _ _ _ _ _ _ => trivial⟩
  have accounts : Accounts assembler may fun _ => True := by
    refine ⟨inherits, fun _ _ => False.elim, fun path name before members fault _ _ failed => ?_⟩
    simp only [archive] at failed
    split at failed
    · cases failed
    · split at failed
      · cases failed
      · cases failed
        exact False.elim
  exact output_blames accounts covers (fun _ _ _ _ => trivial) failed referential

/-- The chain of a cycle starts with the artifact that is built, each plan refers to the next
artifact, and the last one came before. -/
theorem Registry.StuckWith.cycle {registry : Registry} {artifact : Artifact}
    (registered : registry.find? artifact.name = some artifact) {chain : List String}
    (stuck : registry.StuckWith artifact (.cycle chain)) :
    chain.head? = some artifact.name ∧ chain.IsChain registry.Includes ∧
      ∃ front last, chain = front ++ [last] ∧ last ∈ front := by
  obtain ⟨front, last, occurs, failed⟩ := stuck
  obtain ⟨start, path⟩ := occurs.path registered
  rcases Registry.enter_eq_error failed with ⟨_, impossible⟩ | ⟨repeated, same⟩
  · cases impossible
  · obtain rfl : chain = front ++ [last] := BuildFault.cycle.inj same
    obtain ⟨rest, rfl⟩ := start
    exact ⟨rfl, path, _, last, rfl, repeated⟩

namespace Packager

variable {job : Job} {packager : Packager} {disk : Disk} {artifact : Artifact}

theorem update_unbuilt {fault : BuildFault}
    (failed : (update job packager disk artifact).1 = .error (.build fault)) :
    (job.assembler packager.config.compression artifact.name).output job.scope artifact.plan
      (packager.current? artifact) = .error fault := by
  have ends := update_ends job packager disk artifact
  generalize update job packager disk artifact = outcome at failed ends ⊢
  cases ends with
  | unbuilt unbuilt =>
    cases failed
    exact unbuilt
  | nothing _ _ _ => cases failed
  | refused _ _ => cases failed
  | stored _ _ _ => cases failed

theorem update_stuck {fault : BuildFault} (stuck : job.registry.StuckWith artifact fault)
    (packager : Packager) (disk : Disk) :
    ∃ fault, update job packager disk artifact = (.error (.build fault), packager, disk) := by
  have never : ∀ result, (job.assembler packager.config.compression artifact.name).output job.scope
      artifact.plan (packager.current? artifact) ≠ .ok result :=
    fun result => Assembler.output_stuck rfl stuck result
  have ends := update_ends job packager disk artifact
  generalize update job packager disk artifact = outcome at ends ⊢
  cases ends with
  | unbuilt _ => exact ⟨_, rfl⟩
  | nothing absent _ built =>
    rw [absent] at never
    exact absurd built (never _)
  | refused built _ => exact absurd built (never _)
  | stored _ built _ => exact absurd built (never _)

/-- Inclusions are safe, whatever is built again. The expansion of an artifact never includes an
artifact in itself, so that it ends. If not all that the artifact includes can be resolved, it
fails, alone and in every run, and keeps its output. If all can be resolved, it does not fail for a
reference. And the chain of a cycle that is told starts with the artifact, each plan refers to the
next one, and the last one came before. -/
theorem run_resolves (job : Job) (packager : Packager) (disk : Disk) {artifact : Artifact}
    (registered : job.registry.find? artifact.name = some artifact) :
    (∀ chain tree, Occurs job.registry [artifact.name] artifact.plan chain tree →
      chain.Nodup ∧ chain.length ≤ job.registry.names.length) ∧
    (¬ job.registry.Resolvable artifact.name →
      (∃ fault, update job packager disk artifact = (.error (.build fault), packager, disk)) ∧
      (∃ fault, (run job packager disk).1 = .error fault) ∧
      (run job packager disk).2.1.outputs.find? artifact.name =
        packager.outputs.find? artifact.name) ∧
    (job.registry.Resolvable artifact.name →
      ∀ fault, (update job packager disk artifact).1 = .error (.build fault) →
        (∀ name, fault ≠ .unknownArtifact name) ∧ ∀ chain, fault ≠ .cycle chain) ∧
    ∀ chain, (update job packager disk artifact).1 = .error (.build (.cycle chain)) →
      chain.head? = some artifact.name ∧ chain.IsChain job.registry.Includes ∧
        ∃ front last, chain = front ++ [last] ∧ last ∈ front := by
  refine ⟨fun chain tree occurs => ?_, fun unresolvable => ?_, fun resolvable fault failed => ?_,
    fun chain failed => ?_⟩
  · obtain ⟨distinct, known⟩ := occurs.distinct (List.nodup_singleton _) fun name present => by
      rw [List.mem_singleton.mp present]
      exact NameMap.mem_keys registered
    exact ⟨distinct, (List.subperm_of_subset distinct known).length_le⟩
  · obtain ⟨fault, stuck⟩ := Registry.exists_stuck registered unresolvable
    have present := (Registry.find?_eq_some.mp registered).1
    obtain ⟨_, kept, _, _, succeeds, _⟩ := run_atomic job packager disk
    obtain ⟨own, failed⟩ := update_stuck stuck packager
      (turn job packager disk job.registry.artifacts.values artifact.name)
    have result : (alone job packager disk job.registry.artifacts.values artifact).1 =
        .error (.build own) := congrArg Prod.fst failed
    refine ⟨update_stuck stuck packager disk, ?_, kept artifact present _ result⟩
    cases ran : (run job packager disk).1 with
    | error fault => exact ⟨fault, rfl⟩
    | ok report =>
      obtain ⟨_, ok⟩ := succeeds.mp ⟨report, ran⟩ artifact present
      cases result.symm.trans ok
  · have free := Registry.Resolvable.not_stuck registered resolvable fault
    have stuck := Assembler.stuck_of_output rfl (update_unbuilt failed)
    constructor
    · rintro name rfl
      exact free (stuck trivial)
    · rintro chain rfl
      exact free (stuck trivial)
  · exact (Assembler.stuck_of_output rfl (update_unbuilt failed) trivial).cycle registered

end Packager

namespace Sample

/-- The artifact of the project below that is built. -/
def outer : Artifact :=
  ⟨"app", [.container .archive bundle [.leaf (.artifact "lib")]], 2⟩

/-- A change in a project in which an archive includes an artifact with a directory that includes
the artifact of the archive. -/
def circular : Packager.Job where
  workspace := []
  registry := ((Registry.empty.replace "lib"
    [.container .directory left [.leaf (.artifact "app")]]).2.replace "app" outer.plan).2
  hash := Digest.blake3
  scope := .changed ⟨0, 0⟩

end Sample

namespace Packager

open Sample in
theorem run_resolves_circular :
    (update circular (start .standard) .blank outer).1 =
        .error (.build (.cycle ["app", "lib", "app"])) ∧
      circular.registry.Includes "app" "lib" ∧ circular.registry.Includes "lib" "app" ∧
      ¬ circular.registry.Resolvable "app" ∧
      (∃ fault, (run circular (start .standard) .blank).1 = .error fault) ∧
      (run circular (start .standard) .blank).2.1.outputs.find? "app" = none := by
  obtain ⟨_, fails, succeeds, told⟩ := @run_resolves circular (start .standard) .blank outer rfl
  have failed : (update circular (start .standard) .blank outer).1 =
      .error (.build (.cycle ["app", "lib", "app"])) := by decide +kernel
  have unresolvable : ¬ circular.registry.Resolvable "app" := fun resolvable =>
    (succeeds resolvable _ failed).2 _ rfl
  obtain ⟨_, path, _⟩ := told _ failed
  obtain ⟨first, rest⟩ := List.isChain_cons_cons.mp path
  obtain ⟨_, ran, kept⟩ := fails unresolvable
  exact ⟨failed, first, List.isChain_pair.mp rest, unresolvable, ran, kept⟩

end Packager

end Depot

import Depot.Proofs.Build.Revision
import Depot.Proofs.Packager.Frame
import Depot.Proofs.Packager.Incremental

set_option autoImplicit false

namespace Depot.Packager

open Assembler (Revises)
open Slot (usesEach packsEach)
open Entry (Sealed hashedEach listing listDigest)

/-- The slots of an artifact; there are none if its plan cannot be resolved. -/
def Job.expansion (job : Job) (artifact : Artifact) : List Slot :=
  match Resolver.slots ⟨job.workspace, job.registry, artifact.name⟩ artifact.plan with
  | .ok slots => slots
  | .error _ => []

/-- How many places of a file an artifact has, in its expansion. -/
def Job.uses (job : Job) (source : Source) (artifact : Artifact) : Nat :=
  usesEach source (job.expansion artifact)

/-- How many archives of an artifact hold such a place, at any depth. -/
def Job.packs (job : Job) (source : Source) (artifact : Artifact) : Nat :=
  packsEach source (job.expansion artifact)

variable {job : Job} {packager built after : Packager} {artifact : Artifact} {source : Source}
  {old new : Bytes} {report : Report}

theorem Job.expansion_eq {slots : List Slot}
    (expanded : Resolver.slots ⟨job.workspace, job.registry, artifact.name⟩ artifact.plan =
      .ok slots) :
    job.expansion artifact = slots := by
  rw [expansion, expanded]

/-- What a run for a file with a new content tells of an artifact with a full output: it walks
through the slots and compares what it makes of the output with the output from before. -/
inductive Accounts (job : Job) (packager after : Packager) (source : Source) (old new : Bytes)
    (artifact : Artifact) : Report → Prop where
  | told {olds news : List Entry} {effort : Effort} (written : Nat)
    (was : packager.current? artifact = some olds) (now : after.current? artifact = some news)
    (closed : ∀ entry ∈ olds, Sealed job.hash entry)
    (revises : Revises (job.assembler packager.config.compression artifact.name) source old new
      (job.expansion artifact) olds news effort) :
    Accounts job packager after source old new artifact
      (Packager.told job artifact (some olds) news effort written)

theorem UpdatedAlone.accounts {before : Workspace}
    (alone : UpdatedAlone (job.changing source) packager after artifact (.ok report))
    (alike : Workspace.Alike before job.workspace) (earlier : before.Trees)
    (later : job.workspace.Trees) (readOld : before.read source = .ok old)
    (readNew : job.workspace.read source = .ok new) {olds : List Entry}
    (was : ((job.everything before).assembler packager.config.compression artifact.name).full?
      artifact.plan = some olds) (current : packager.current? artifact = some olds) :
    Accounts job packager after source old new artifact report := by
  have makes := alone.makes
  rw [current] at makes
  cases now : after.current? artifact with
  | none =>
    rw [now] at makes
    exact nomatch makes.of_none.1
  | some news =>
    rw [now] at makes
    cases makes with
    | @output _ _ effort written _ built =>
      obtain ⟨slots, expanded, revises⟩ := @Assembler.output_revises
        (job.assembler packager.config.compression artifact.name) _ _ _ _ _ _ _ alike later
        readOld readNew _ was built
      obtain rfl := Job.expansion_eq expanded
      have closed := (Assembler.full_sealed earlier was).1
      cases closed with
      | directory _ inner => exact .told written current now inner revises

theorem effort_told (previous entries : List Entry) (effort : Effort) (written : Nat) :
    (told job artifact (some previous) entries effort written).effort = effort := by
  unfold told
  split <;> rfl

namespace Accounts

theorem reads (accounts : Accounts job packager after source old new artifact report) :
    report.effort.read = job.uses source artifact ∧ report.effort.reused = 0 := by
  cases accounts with
  | told written _ _ _ revises =>
    rw [effort_told]
    exact revises.reads

theorem same (accounts : Accounts job packager after source old new artifact report)
    (same : old = new) :
    report.effort.encoded = 0 ∧ report.updated = [] ∧ report.unchanged = [artifact.name] := by
  cases accounts with
  | told written _ _ _ revises =>
    obtain ⟨listed, nothing⟩ := revises.same same
    have digests : listDigest job.hash _ = listDigest job.hash _ := congrArg job.hash listed.symm
    rw [effort_told]
    simp [Packager.told, digests, nothing]

theorem different (accounts : Accounts job packager after source old new artifact report)
    (lengths : ∀ content, (job.hash content).bytes.length = 32)
    (undoes : ∀ level, packager.config.compression = .zstd level →
      ∀ content, job.codec.decompress (job.codec.compress level content) = .ok content)
    (different : old ≠ new) (separates : job.hash.Separates (packager.hashed ++ after.hashed))
    (short : ∀ string ∈ packager.hashed ++ after.hashed, string.length < Bytes.limit 8) :
    report.effort.encoded = job.packs source artifact ∧
      report.updated = (if decide (job.uses source artifact ≠ 0) then [artifact.name] else []) ∧
      report.unchanged =
        (if decide (job.uses source artifact = 0) then [artifact.name] else []) := by
  cases accounts with
  | @told olds news effort written was now closed revises =>
    have oldHashed : listing olds :: hashedEach olds ⊆ packager.hashed ++ after.hashed :=
      List.subset_append_of_subset_left _ (@hashed_current job _ _ _ was)
    have newHashed : listing news :: hashedEach news ⊆ packager.hashed ++ after.hashed :=
      List.subset_append_of_subset_right _ (@hashed_current job _ _ _ now)
    obtain ⟨encoded, _⟩ := revises.different lengths undoes separates short different closed
      (List.cons_subset.mp oldHashed).2 (List.cons_subset.mp newHashed).2
    have digests : listDigest job.hash olds = listDigest job.hash news ↔
        job.uses source artifact = 0 :=
      revises.listDigest_eq_iff lengths undoes separates short different closed oldHashed newHashed
    rw [effort_told]
    refine ⟨encoded, ?_⟩
    by_cases unused : job.uses source artifact = 0
    · simp [Packager.told, digests.mpr unused, unused]
    · simp [Packager.told, mt digests.mp unused, unused]

end Accounts

section Summary

variable {artifacts : List Artifact} {reports : List Report}
  (accounts : List.Forall₂ (Accounts job built after source old new) artifacts reports)

include accounts

theorem total_reads :
    (total reports).read = (artifacts.map (job.uses source)).sum ∧ (total reports).reused = 0 := by
  rw [count_total Effort.read rfl fun _ _ => rfl]
  refine ⟨congrArg List.sum (map_eq_of_forall₂ accounts fun _ _ accounts => accounts.reads.1), ?_⟩
  refine (count_total_eq_zero Effort.reused rfl fun _ _ => rfl).mpr fun report present => ?_
  obtain ⟨_, _, accounts⟩ := exists_of_mem_right accounts present
  exact accounts.reads.2

theorem total_same (same : old = new) :
    (total reports).encoded = 0 ∧ reports.flatMap Report.updated = [] ∧
      reports.flatMap Report.unchanged = artifacts.map Artifact.name := by
  have each : ∀ report ∈ reports, report.effort.encoded = 0 ∧ report.updated = [] := by
    intro report present
    obtain ⟨_, _, accounts⟩ := exists_of_mem_right accounts present
    exact ⟨(accounts.same same).1, (accounts.same same).2.1⟩
  refine ⟨(count_total_eq_zero Effort.encoded rfl fun _ _ => rfl).mpr fun report present => ?_,
    List.flatMap_eq_nil_iff.mpr fun report present => ?_, ?_⟩
  · exact (each report present).1
  · exact (each report present).2
  · have all : reports.flatMap Report.unchanged = (artifacts.filter fun _ => true).map
        Artifact.name :=
      flatMap_eq_filter accounts fun _ _ accounts => (accounts.same same).2.2
    rw [all, List.filter_true]

theorem total_different (lengths : ∀ content, (job.hash content).bytes.length = 32)
    (undoes : ∀ level, built.config.compression = .zstd level →
      ∀ content, job.codec.decompress (job.codec.compress level content) = .ok content)
    (different : old ≠ new) (separates : job.hash.Separates (built.hashed ++ after.hashed))
    (short : ∀ string ∈ built.hashed ++ after.hashed, string.length < Bytes.limit 8) :
    (total reports).encoded = (artifacts.map (job.packs source)).sum ∧
      reports.flatMap Report.updated =
        (artifacts.filter fun artifact => job.uses source artifact ≠ 0).map Artifact.name ∧
      reports.flatMap Report.unchanged =
        (artifacts.filter fun artifact => job.uses source artifact = 0).map Artifact.name := by
  have each :=
    fun artifact report (accounts : Accounts job built after source old new artifact report) =>
    accounts.different lengths undoes different separates short
  rw [count_total Effort.encoded rfl fun _ _ => rfl]
  refine ⟨congrArg List.sum (map_eq_of_forall₂ accounts fun _ _ accounts => ?_),
    flatMap_eq_filter accounts fun _ _ accounts => ?_,
    flatMap_eq_filter accounts fun _ _ accounts => ?_⟩
  · exact (each _ _ accounts).1
  · exact (each _ _ accounts).2.1
  · exact (each _ _ accounts).2.2

end Summary

end Depot.Packager

namespace Depot.Sample

open Packager (Job run start)

def boxed (name : Name) (node : NodeId) : Outline Ingredient :=
  .container .archive name [.leaf (.file ⟨0, node⟩)]

/-- A project with two artifacts: one with an archive for each of two files, one with the first
file. -/
def siblings : Job :=
  { single [] with
    registry := ((Registry.empty.replace "lib" [.leaf (.file ⟨0, 1⟩)]).2.replace "app"
      [boxed left 1, boxed right 2]).2 }

/-- A build of both, in which archives are compressed. -/
def assembled : Except PackagerFault Report × Packager × Disk :=
  run (siblings.everything ((Sessions.start 1).run filing).workspace) (start ⟨.zstd 3, none⟩) .blank

/-- Gives the second file another content. -/
def rewriting : List Request :=
  [⟨0, .setContent 2 "user" newText true⟩]

def rewritten : Job :=
  siblings.everything ((Sessions.start 1).run (filing ++ rewriting)).workspace

def reassembled : Except PackagerFault Report × Packager × Disk :=
  run (rewritten.changing ⟨0, 2⟩) assembled.2.1 assembled.2.2

end Depot.Sample

namespace Depot.Packager

/-- Let a build of everything succeed, and let commands follow that leave all nodes where they are,
so that a file may get another content. All artifacts can be resolved, and only the disk can make a
run for this file fail. One that succeeds reads the file once for each of its places in the
artifacts, and uses no file again. If the content is another one, and no byte strings collide, it
encodes each archive with such a place once and no other; just the artifacts with such a place are
updated, in the order of their names. If the content is the same, no archive is encoded and no
artifact is updated. -/
theorem run_minimal {job : Job} (lengths : ∀ content, (job.hash content).bytes.length = 32)
    {volumes : Nat} {first second : List Request} {packager built : Packager}
    {disk builtDisk : Disk} {report : Report} {source : Source} {old new : Bytes}
    (undoes : ∀ level, packager.config.compression = .zstd level →
      ∀ content, job.codec.decompress (job.codec.compress level content) = .ok content)
    (compiled : run (job.everything ((Sessions.start volumes).run first).workspace) packager disk =
      (.ok report, built, builtDisk))
    (keep : ∀ request ∈ second, request.command.keepsTree = true)
    (readOld : ((Sessions.start volumes).run first).workspace.read source = .ok old)
    (readNew : ((Sessions.start volumes).run (first ++ second)).workspace.read source = .ok new) :
    let now := job.everything ((Sessions.start volumes).run (first ++ second)).workspace
    let artifacts := now.registry.artifacts.values
    artifacts.Pairwise (fun artifact later => artifact.name < later.name) ∧
    (∀ artifact ∈ artifacts, Resolver.slots ⟨now.workspace, now.registry, artifact.name⟩
      artifact.plan =
      .ok (now.expansion artifact)) ∧
    (built.config.outputDirectory = none →
      ∃ report, (run (now.changing source) built builtDisk).1 = .ok report) ∧
    (∀ fault, (run (now.changing source) built builtDisk).1 = .error fault →
      ∃ refused, fault = .disk refused) ∧
    ∀ report after disk', run (now.changing source) built builtDisk = (.ok report, after, disk') →
      report.effort.read = (artifacts.map (now.uses source)).sum ∧ report.effort.reused = 0 ∧
      (old = new → report.effort.encoded = 0 ∧ report.updated = [] ∧
        report.unchanged = artifacts.map Artifact.name) ∧
      (old ≠ new → job.hash.Separates (built.hashed ++ after.hashed) →
        (∀ string ∈ built.hashed ++ after.hashed, string.length < Bytes.limit 8) →
        report.effort.encoded = (artifacts.map (now.packs source)).sum ∧
        report.updated =
          (artifacts.filter fun artifact => now.uses source artifact ≠ 0).map Artifact.name ∧
        report.unchanged =
          (artifacts.filter fun artifact => now.uses source artifact = 0).map Artifact.name) := by
  intro now artifacts
  have earlier := (Workspace.run_evolves (Sessions.start_trees volumes) first).later
  have evolves := Workspace.run_evolves earlier second
  have alike := @Workspace.run_alike ((Sessions.start volumes).run first) second keep
  rw [← Sessions.run_append] at evolves alike
  obtain ⟨eachBuilt, sameConfig, others⟩ :=
    @run_everything (job.everything ((Sessions.start volumes).run first).workspace)
      packager disk rfl
      _ (congrArg Prod.fst compiled)
  rw [compiled] at eachBuilt sameConfig others
  rw [← sameConfig] at eachBuilt undoes
  have buildable : now.Buildable built.config.compression := fun artifact registered =>
    have ⟨_, was, _⟩ := eachBuilt artifact registered
    @Assembler.full?_alike (now.assembler built.config.compression artifact.name) _
      alike evolves.later
      _ _ was
  have filled := (@built_awaits now built _ _ evolves buildable eachBuilt others).1
  obtain ⟨_, faults⟩ :=
    @changing_filled now built builtDisk lengths evolves.later source buildable filled
  refine ⟨job.registry.values_ascending, fun artifact registered => ?_, fun none => ?_,
    fun fault failed => (faults fault failed).2, fun report after disk' succeeded => ?_⟩
  · obtain ⟨_, was, _⟩ := eachBuilt artifact registered
    obtain ⟨slots, expanded, _⟩ :=
      @Assembler.slots_of_full? (now.assembler built.config.compression artifact.name) _ alike
        evolves.later _ _ was
    rw [Job.expansion_eq expanded]
    exact expanded
  · cases outcome : (run (now.changing source) built builtDisk).1 with
    | ok report => exact ⟨report, rfl⟩
    | error fault => exact absurd none (faults fault outcome).1
  · obtain ⟨reports, each, updated, unchanged, effort⟩ := run_report (congrArg Prod.fst succeeded)
    rw [succeeded] at each
    have accounts : List.Forall₂ (Accounts now built after source old new) artifacts reports := by
      have registered : ∀ artifact ∈ artifacts, artifact ∈ artifacts := fun _ present => present
      refine ((List.forall₂_and_left _ _).mpr ⟨registered, each⟩).imp ?_
      rintro artifact report ⟨present, alone⟩
      obtain ⟨_, was, current⟩ := eachBuilt artifact present
      exact alone.accounts alike earlier evolves.later readOld readNew was current
    obtain ⟨read, reused⟩ := total_reads accounts
    rw [effort, updated, unchanged]
    exact ⟨read, reused, total_same accounts, total_different accounts lengths undoes⟩

open Sample in
theorem run_minimal_siblings :
    ∃ report, reassembled.1 = .ok report ∧ report.effort.read = 1 ∧ report.effort.encoded = 1 ∧
      report.updated = ["app"] ∧ report.unchanged = ["lib"] := by
  obtain ⟨compiled, unpublished, separates, short⟩ :
      assembled.1 = .ok ⟨["app", "lib"], [], ⟨3, 0, 2⟩, 0⟩ ∧
      assembled.2.1.config.outputDirectory = none ∧
      rewritten.hash.Separates (assembled.2.1.hashed ++ reassembled.2.1.hashed) ∧
      ∀ string ∈ assembled.2.1.hashed ++ reassembled.2.1.hashed, string.length < Bytes.limit 8 := by
    simp only [reassembled, assembled, rewritten, siblings, single, Digest.blake3_eq_quick]
    decide +kernel
  have keep : ∀ request ∈ rewriting, request.command.keepsTree = true := by decide
  obtain ⟨readOld, readNew⟩ :
      ((Sessions.start 1).run filing).workspace.read ⟨0, 2⟩ = .ok empty ∧
      ((Sessions.start 1).run (filing ++ rewriting)).workspace.read ⟨0, 2⟩ = .ok newText := by
    decide +kernel
  obtain ⟨_, _, succeeds, _, reports⟩ := @run_minimal siblings Blake3.length_hash 1 filing
    rewriting (start ⟨.zstd 3, none⟩) _ .blank _ _ ⟨0, 2⟩ empty newText
    (fun _ _ content => Zstd.decompress_compress content) (Prod.ext compiled rfl) keep
      readOld readNew
  obtain ⟨report, succeeded⟩ := succeeds unpublished
  obtain ⟨read, _, _, different⟩ := reports report _ _ (Prod.ext succeeded rfl)
  obtain ⟨encoded, updated, unchanged⟩ := different (by decide) separates short
  refine ⟨report, succeeded, read.trans ?_, encoded.trans ?_, updated.trans ?_, unchanged.trans ?_⟩
  · decide +kernel
  · decide +kernel
  · decide +kernel
  · decide +kernel

end Depot.Packager

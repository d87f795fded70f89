import Depot.Proofs.Packager.Everything
import Depot.Proofs.Workspace.History
import Depot.Sample

set_option autoImplicit false

namespace Depot.Packager

open Assembler (Settled Trusted Advances)
open Entry (Sealed Encoded)

def runEach (job : Job) (packager : Packager) (disk : Disk) :
    List Source → List (Except PackagerFault Report) × Packager × Disk
  | [] => ([], packager, disk)
  | source :: rest =>
    let (result, packager, disk) := run (job.changing source) packager disk
    let (results, packager, disk) := runEach job packager disk rest
    (result :: results, packager, disk)

/-- The byte strings that were hashed for the outputs before and after each of some updates. -/
def hashedAlong (job : Job) (packager : Packager) (disk : Disk) : List Source → List Bytes
  | [] => packager.hashed
  | source :: rest =>
    let (_, next, disk) := run (job.changing source) packager disk
    packager.hashed ++ hashedAlong job next disk rest

/-- A packager has an output for every registered artifact, built from the plan that it has, and for
no other. -/
structure Filled (job : Job) (packager : Packager) : Prop where
  registered : ∀ artifact ∈ job.registry.artifacts.values, ∃ entries,
    packager.current? artifact = some entries ∧ Sealed job.hash (Entry.whole job.hash entries)
  others : ∀ name, job.registry.find? name = none → packager.output? name = none

/-- All outputs are settled up to some changes, and their archives hold what their members give. -/
def Awaits (job : Job) (pending : List Source) (packager : Packager) : Prop :=
  ∀ artifact ∈ job.registry.artifacts.values, ∀ entries,
    packager.current? artifact = some entries →
      let assembler := job.assembler packager.config.compression artifact.name
      Encoded job.codec packager.config.compression (Entry.whole job.hash entries) ∧
        Settled assembler pending (assembler.whole artifact.plan)
          (some (Entry.whole job.hash entries))

variable {job : Job} {packager : Packager} {disk : Disk} {artifact : Artifact}

/-- What a build of everything leaves is settled later, up to what was touched since. -/
theorem built_awaits {before : Workspace} {pending : List Source}
    (evolves : Workspace.Evolves pending before job.workspace)
    (buildable : job.Buildable packager.config.compression)
    (built : ∀ artifact ∈ job.registry.artifacts.values, ∃ entries,
      ((job.everything before).assembler packager.config.compression artifact.name).full?
          artifact.plan = some entries ∧ packager.current? artifact = some entries)
    (others : ∀ name, job.registry.find? name = none → packager.output? name = none) :
    Filled job packager ∧ Awaits job pending packager := by
  refine ⟨⟨fun artifact registered => ?_, others⟩, fun artifact registered entries current => ?_⟩
  · obtain ⟨entries, complete, current⟩ := built artifact registered
    exact ⟨entries, current, (Assembler.full_sealed evolves.earlier complete).1⟩
  · obtain ⟨entries', was, current'⟩ := built artifact registered
    obtain ⟨full, complete⟩ := buildable artifact registered
    obtain rfl : entries' = entries := Option.some.inj (current'.symm.trans current)
    exact ⟨(Assembler.full_sealed evolves.earlier was).2,
      Assembler.full_settled evolves was complete⟩

section Changes

variable (lengths : ∀ content, (job.hash content).bytes.length = 32) (trees : job.workspace.Trees)
  {source : Source}

include lengths trees

/-- What an update for one change does to one artifact: it makes progress, unless the disk refuses.
-/
theorem changed_alone {before after : Packager} {result : Except PackagerFault Report}
    (alone : UpdatedAlone (job.changing source) before after artifact result) {full : List Entry}
    (complete : (job.assembler before.config.compression artifact.name).full? artifact.plan =
      some full)
    {previous : List Entry} (current : before.current? artifact = some previous)
    (closed : Sealed job.hash (Entry.whole job.hash previous)) :
    (∃ report entries, result = .ok report ∧ after.current? artifact = some entries ∧
      Sealed job.hash (Entry.whole job.hash entries) ∧
      ∀ strings, job.hash.Separates strings → (Entry.whole job.hash entries).hashed ⊆ strings →
        let assembler := job.assembler before.config.compression artifact.name
        Trusted assembler strings (Entry.whole job.hash previous) →
        Advances assembler source strings (assembler.whole artifact.plan)
          (some (Entry.whole job.hash previous)) (Entry.whole job.hash entries)) ∨
    (before.config.outputDirectory ≠ none ∧ (∃ fault, result = .error (.disk fault)) ∧
      after.current? artifact = before.current? artifact) := by
  obtain ⟨packager, disk, config, same, updated, stored⟩ := alone
  have here : packager.current? artifact = some previous := (current?_congr same).trans current
  obtain ⟨entries, effort, built, sealedNow, advances⟩ :=
    Assembler.output_updated lengths trees complete source closed
  rw [← config, ← here] at built
  rcases @update_built (job.changing source) packager disk artifact entries effort built
    (.inl (by rw [here]; rfl)) with
    ⟨report, disk', success⟩ | ⟨directory, fault, disk', failure⟩
  · rw [success] at updated stored
    refine .inl ⟨report, entries, updated.symm, ?_, sealedNow, advances⟩
    rw [current?_congr stored, current?_store]
  · rw [failure] at updated stored
    refine .inr ⟨config ▸ directory, ⟨fault, updated.symm⟩, ?_⟩
    rw [outputs_doubt, same] at stored
    exact current?_congr stored

/-- One step: a run for one change keeps the outputs, and only the disk can make it fail. -/
theorem changing_filled (buildable : job.Buildable packager.config.compression)
    (filled : Filled job packager) :
    Filled job (run (job.changing source) packager disk).2.1 ∧
      ∀ fault, (run (job.changing source) packager disk).1 = .error fault →
        packager.config.outputDirectory ≠ none ∧ ∃ refused, fault = .disk refused := by
  obtain ⟨results, summary, each, _, others⟩ := run_alone (job.changing source) packager disk
  refine ⟨⟨fun artifact registered => ?_, fun name absent =>
    by rw [output?, others name absent]; rfl⟩, fun fault failed => ?_⟩
  · obtain ⟨result, _, alone⟩ := exists_of_mem_left each registered
    obtain ⟨full, complete⟩ := buildable artifact registered
    obtain ⟨previous, current, closed⟩ := filled.registered artifact registered
    rcases changed_alone lengths trees alone complete current closed with
      ⟨_, entries, _, after, sealedNow, _⟩ | ⟨_, _, kept⟩
    · exact ⟨entries, after, sealedNow⟩
    · exact ⟨previous, kept.trans current, closed⟩
  · have present := summarize_eq_error (summary.symm.trans failed)
    obtain ⟨artifact, registered, alone⟩ := exists_of_mem_right each present
    obtain ⟨full, complete⟩ := buildable artifact registered
    obtain ⟨previous, current, closed⟩ := filled.registered artifact registered
    rcases changed_alone lengths trees alone complete current closed with
      ⟨_, _, ok, _⟩ | ⟨directory, ⟨refused, error⟩, _⟩
    · cases ok
    · exact ⟨directory, refused, Except.error.inj error⟩

/-- One step: a run for one change that succeeds settles what waited for it. -/
theorem changing_awaits (buildable : job.Buildable packager.config.compression)
    (filled : Filled job packager) {report : Report}
    (succeeded : (run (job.changing source) packager disk).1 = .ok report) {strings : List Bytes}
    (separates : job.hash.Separates strings) (hashedBefore : packager.hashed ⊆ strings)
    (hashedAfter : (run (job.changing source) packager disk).2.1.hashed ⊆ strings)
    {pending : List Source} (awaits : Awaits job (source :: pending) packager) :
    Awaits job pending (run (job.changing source) packager disk).2.1 := by
  obtain ⟨results, summary, each, config, _⟩ := run_alone (job.changing source) packager disk
  intro artifact registered entries after
  obtain ⟨result, present, alone⟩ := exists_of_mem_left each registered
  obtain ⟨full, complete⟩ := buildable artifact registered
  obtain ⟨previous, current, closed⟩ := filled.registered artifact registered
  obtain ⟨report', ok⟩ := summarize_eq_ok.mp ⟨report, summary.symm.trans succeeded⟩ result present
  rcases changed_alone lengths trees alone complete current closed with
    ⟨_, entries', _, after', _, advances⟩ | ⟨_, ⟨_, error⟩, _⟩
  · obtain rfl : entries' = entries := Option.some.inj (after'.symm.trans after)
    obtain ⟨encoded, settled⟩ := awaits artifact registered previous current
    have advance := advances strings separates
      (List.Subset.trans (hashed_current after) hashedAfter)
      ⟨encoded, List.Subset.trans (hashed_current current) hashedBefore⟩
    rw [config]
    exact ⟨advance.encoded, advance.settled pending settled⟩
  · rw [ok] at error
    cases error

/-- All steps, by induction on the sources: only the disk can make a run fail. -/
theorem runEach_filled {order : List Source} (buildable : job.Buildable packager.config.compression)
    (filled : Filled job packager) :
    Filled job (runEach job packager disk order).2.1 ∧
      (runEach job packager disk order).2.1.config = packager.config ∧
      ∀ result ∈ (runEach job packager disk order).1, ∀ fault, result = .error fault →
        packager.config.outputDirectory ≠ none ∧ ∃ refused, fault = .disk refused := by
  induction order generalizing packager disk with
  | nil => exact ⟨filled, rfl, fun _ present => (List.not_mem_nil present).elim⟩
  | cons source rest ih =>
    obtain ⟨_, _, _, config, _⟩ := run_alone (job.changing source) packager disk
    obtain ⟨filledNext, faults⟩ := @changing_filled job packager disk lengths trees source
      buildable filled
    obtain ⟨filledLast, configLast, faultsLater⟩ :=
      @ih (run (job.changing source) packager disk).2.1
        (run (job.changing source) packager disk).2.2
        (config ▸ buildable) filledNext
    refine ⟨filledLast, configLast.trans config, fun result present fault failed => ?_⟩
    rcases List.mem_cons.mp present with rfl | later
    · exact faults fault failed
    · rw [← config]
      exact faultsLater result later fault failed

/-- All steps, by induction on the sources: if they succeed, nothing is left to wait for. -/
theorem runEach_awaits {order : List Source} (buildable : job.Buildable packager.config.compression)
    (filled : Filled job packager)
    (succeeded : ∀ result ∈ (runEach job packager disk order).1, ∃ report, result = .ok report)
    {strings : List Bytes} (separates : job.hash.Separates strings)
    (hashed : hashedAlong job packager disk order ⊆ strings) (awaits : Awaits job order packager) :
    Awaits job [] (runEach job packager disk order).2.1 := by
  induction order generalizing packager disk with
  | nil => exact awaits
  | cons source rest ih =>
    obtain ⟨_, _, _, config, _⟩ := run_alone (job.changing source) packager disk
    obtain ⟨filledNext, _⟩ := @changing_filled job packager disk lengths trees source
      buildable filled
    obtain ⟨report, ok⟩ := succeeded _ List.mem_cons_self
    obtain ⟨hashedBefore, hashedLater⟩ := List.append_subset.mp hashed
    have hashedNext : (run (job.changing source) packager disk).2.1.hashed ⊆ strings := by
      refine List.Subset.trans ?_ hashedLater
      cases rest with
      | nil => exact List.Subset.refl _
      | cons _ _ => exact List.subset_append_left _ _
    refine ih (config ▸ buildable) filledNext
      (fun result present => succeeded result (List.mem_cons_of_mem _ present)) hashedLater ?_
    exact changing_awaits lengths trees buildable filled ok separates hashedBefore hashedNext awaits

end Changes

end Depot.Packager

namespace Depot.Sample

open Packager (Job run start)

def copying : Job where
  workspace := []
  registry := (Registry.empty.replace "app" [.leaf (.copy ⟨0, 1⟩)]).2
  hash := Digest.blake3
  scope := .everything

def filling : List Request :=
  [⟨0, .createDirectory "static"⟩, ⟨0, .createFile "static/page" text⟩]

/-- Gives the name of the file to another one. -/
def replacing : List Request :=
  [⟨0, .rename 2 "user" "old"⟩, ⟨0, .createFile "static/page" newText⟩]

def replaced : Job :=
  copying.everything ((Sessions.start 1).run (filling ++ replacing)).workspace

def built : Except PackagerFault Report × Packager × Disk :=
  run (copying.everything ((Sessions.start 1).run filling).workspace) (start .standard) .blank

def rebuilt : Except PackagerFault Report × Packager × Disk :=
  run replaced (start .standard) .blank

end Depot.Sample

namespace Depot.Packager

/-- Let a build of everything succeed, let any commands follow, and let the packager then be told,
in any order, at least all nodes that the commands touched. If a new packager could build everything
now, then only the disk can make one of these updates fail; and if none fails, all outputs are in
the end those of the new packager, unless byte strings collide. -/
theorem runEach_eq_everything {job : Job}
    (lengths : ∀ content, (job.hash content).bytes.length = 32)
    {volumes : Nat} {first second : List Request} {packager built full : Packager}
    {disk builtDisk freshDisk fullDisk : Disk} {report fullReport : Report} {config : Config}
    {order : List Source}
    (compiled : run (job.everything ((Sessions.start volumes).run first).workspace) packager disk =
      (.ok report, built, builtDisk))
    (told : ((Sessions.start volumes).run first).touched second ⊆ order)
    (alike : config.compression = packager.config.compression)
    (fresh : run (job.everything ((Sessions.start volumes).run (first ++ second)).workspace)
      (start config) freshDisk = (.ok fullReport, full, fullDisk)) :
    let now := job.everything ((Sessions.start volumes).run (first ++ second)).workspace
    let outcome := runEach now built builtDisk order
    (built.config.outputDirectory = none → ∀ result ∈ outcome.1, ∃ report, result = .ok report) ∧
    (∀ fault, .error fault ∈ outcome.1 → ∃ refused, fault = .disk refused) ∧
    ((∀ result ∈ outcome.1, ∃ report, result = .ok report) →
      job.hash.Separates (hashedAlong now built builtDisk order) →
      ∀ name, outcome.2.1.output? name = full.output? name) := by
  intro now outcome
  have earlier := (Workspace.run_evolves (Sessions.start_trees volumes) first).later
  have evolves := (Workspace.run_evolves earlier second).mono told
  rw [← Sessions.run_append] at evolves
  obtain ⟨eachBuilt, sameConfig, others⟩ :=
    @run_everything (job.everything ((Sessions.start volumes).run first).workspace)
      packager disk rfl
      report (congrArg Prod.fst compiled)
  obtain ⟨eachFull, _, othersFull⟩ :=
    @run_everything now (start config) freshDisk rfl fullReport (congrArg Prod.fst fresh)
  rw [compiled] at eachBuilt sameConfig others
  rw [fresh] at eachFull othersFull
  have sameCompression : (start config).config.compression = built.config.compression :=
    alike.trans (congrArg Config.compression sameConfig).symm
  rw [sameCompression] at eachFull
  rw [← sameConfig] at eachBuilt
  have buildable : now.Buildable built.config.compression := fun artifact registered =>
    (eachFull artifact registered).imp fun _ => And.left
  obtain ⟨filled, awaits⟩ := @built_awaits now built _ order evolves buildable eachBuilt others
  obtain ⟨filledLast, configLast, faults⟩ :=
    @runEach_filled now built builtDisk lengths evolves.later order buildable filled
  refine ⟨fun none result present => ?_, fun fault failed => (faults _ failed fault rfl).2,
    fun succeeded separates name => ?_⟩
  · cases result with
    | ok report => exact ⟨report, rfl⟩
    | error fault => exact absurd none (faults _ present fault rfl).1
  · cases known : job.registry.find? name with
    | none => rw [filledLast.others name known, othersFull name known]
    | some artifact =>
      obtain ⟨registered, rfl⟩ := Registry.find?_eq_some.mp known
      have last := @runEach_awaits now built builtDisk lengths evolves.later order buildable
        filled succeeded
        _ separates (List.Subset.refl _) awaits
      obtain ⟨entries, current, _⟩ := filledLast.registered artifact registered
      obtain ⟨entries', complete, current'⟩ := eachFull artifact registered
      have settled := (last artifact registered entries current).2
      rw [configLast] at settled
      have equal := settled.eq_complete fun _ waiting => (List.not_mem_nil waiting).elim
      rw [Assembler.complete?_whole, complete] at equal
      have same : entries = entries' := Entry.whole_injective (Option.some.inj equal)
      rw [output?_of_current? current, output?_of_current? current', same]

open Sample in
theorem runEach_eq_everything_replaced :
    let outcome := runEach replaced built.2.1 built.2.2 [⟨0, 3⟩, ⟨0, 2⟩]
    (∀ result ∈ outcome.1, ∃ report, result = .ok report) ∧
      outcome.2.1.output? "app" = rebuilt.2.1.output? "app" := by
  have compiled : built.1 = .ok ⟨["app"], [], ⟨1, 0, 0⟩, 0⟩ := by
    simp only [built, copying, Digest.blake3_eq_quick]
    decide +kernel
  have fresh : rebuilt.1 = .ok ⟨["app"], [], ⟨2, 0, 0⟩, 0⟩ := by
    simp only [rebuilt, replaced, copying, Digest.blake3_eq_quick]
    decide +kernel
  have told : ((Sessions.start 1).run filling).touched replacing ⊆ [⟨0, 3⟩, ⟨0, 2⟩] := by
    decide +kernel
  have unpublished : built.2.1.config.outputDirectory = none := by decide +kernel
  have separates : copying.hash.Separates
      (hashedAlong replaced built.2.1 built.2.2 [⟨0, 3⟩, ⟨0, 2⟩]) := by
    simp only [replaced, built, copying, Digest.blake3_eq_quick]
    decide +kernel
  obtain ⟨succeed, _, equal⟩ :=
    @runEach_eq_everything copying Blake3.length_hash 1 filling replacing
      (start .standard) _ _ .blank _
      .blank _ _ _ .standard _ (Prod.ext compiled rfl) told rfl (Prod.ext fresh rfl)
  have succeeded := succeed unpublished
  exact ⟨succeeded, equal succeeded separates "app"⟩

end Depot.Packager
